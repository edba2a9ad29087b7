import DidCrdt.Theory.Coherence
import Mathlib.Computability.Language

/-!
# The grammar of aliases

The grammar of an alias is a language over characters, built from the classes of its documentation
(`aliasUri`). The recogniser reads one alias in a pass: it splits at the first colon, which no scheme
contains, so it accepts the words of the language (`recogniseUri_eq_ok_iff`), among those of a bounded
length in bytes. It accepts a list of at most thirty-two of them, also when one is repeated: the set that is
stored is sorted and without repetition, and every alias of a document is one that was recognised
(`recogniseAlsoKnownAs_grammar`).
-/

set_option autoImplicit false
set_option relaxedAutoImplicit false

namespace DidCrdt

open scoped Computability
open LastWriter (LWWReg)

/-! ### Words of characters -/

section Characters

variable {α : Type}

/-- The words of one character of a class. -/
def oneOf (p : α → Prop) : Language α := {w | ∃ c, p c ∧ w = [c]}

/-- A word of characters of a class, one after another. -/
theorem mem_kstar_oneOf {p : α → Prop} {w : List α} : w ∈ (oneOf p)∗ ↔ ∀ c ∈ w, p c := by
  rw [Language.mem_kstar]
  constructor
  · rintro ⟨words, rfl, hwords⟩ c hc
    obtain ⟨word, hword, hc⟩ := List.mem_flatten.mp hc
    obtain ⟨c', hc', rfl⟩ := hwords word hword
    exact List.mem_singleton.mp hc ▸ hc'
  · intro hall
    refine ⟨w.map fun c ↦ [c], ?_, fun word hword ↦ ?_⟩
    · rw [← List.flatMap_def]
      exact (List.flatMap_singleton' w).symm
    obtain ⟨c, hc, rfl⟩ := List.mem_map.mp hword
    exact ⟨c, hall c hc, rfl⟩

/-- A character of a class, and a word after it. -/
theorem mem_oneOf_mul {p : α → Prop} {l : Language α} {w : List α} :
    w ∈ oneOf p * l ↔ ∃ c tail, p c ∧ tail ∈ l ∧ w = c :: tail := by
  rw [Language.mem_mul]
  constructor
  · rintro ⟨_, ⟨c, hc, rfl⟩, tail, htail, rfl⟩
    exact ⟨c, tail, hc, htail, rfl⟩
  · rintro ⟨c, tail, hc, htail, rfl⟩
    exact ⟨[c], ⟨c, hc, rfl⟩, tail, htail, rfl⟩

end Characters

/-! ### The grammar -/

/-- The characters between two code points. -/
def InRange (low high : ℕ) (c : Char) : Prop := low ≤ c.toNat ∧ c.toNat ≤ high

/-- `ALPHA = %x41-5A / %x61-7A`. -/
def IsAlpha (c : Char) : Prop := InRange 0x41 0x5A c ∨ InRange 0x61 0x7A c

/-- `DIGIT = %x30-39`. -/
def IsDigit (c : Char) : Prop := InRange 0x30 0x39 c

/-- `scheme = ALPHA *( ALPHA / DIGIT / "+" / "-" / "." )`. -/
def aliasScheme : Language Char :=
  oneOf IsAlpha * (oneOf fun c ↦ IsAlpha c ∨ IsDigit c ∨ c = '+' ∨ c = '-' ∨ c = '.')∗

/-- `uri = scheme ":" 1*( %x21-7E )`. -/
def aliasUri : Language Char :=
  aliasScheme * (oneOf (· = ':') * (oneOf (InRange 0x21 0x7E) * (oneOf (InRange 0x21 0x7E))∗))

/-- An alias: a word of the grammar of 1 to 512 bytes. -/
def IsAlias (uri : String) : Prop :=
  1 ≤ uri.utf8ByteSize ∧ uri.utf8ByteSize ≤ 512 ∧ uri.toList ∈ aliasUri

/-! ### The recogniser -/

theorem isAsciiAlphabetic_iff (c : Char) : isAsciiAlphabetic c = true ↔ IsAlpha c := by
  simp only [isAsciiAlphabetic, IsAlpha, InRange, Bool.or_eq_true, Bool.and_eq_true, decide_eq_true_eq]
  rfl

theorem isAsciiAlphanumeric_iff (c : Char) : isAsciiAlphanumeric c = true ↔ IsAlpha c ∨ IsDigit c := by
  rw [isAsciiAlphanumeric, Bool.or_eq_true, isAsciiAlphabetic_iff, Bool.and_eq_true, decide_eq_true_eq,
    decide_eq_true_eq]
  rfl

theorem isPrintable_iff (c : Char) : isPrintable c = true ↔ InRange 0x21 0x7E c := by
  rw [isPrintable, Bool.and_eq_true, decide_eq_true_eq, decide_eq_true_eq]
  rfl

theorem schemeOk_iff (scheme : List Char) : schemeOk scheme = true ↔ scheme ∈ aliasScheme := by
  rw [aliasScheme, mem_oneOf_mul]
  cases scheme with
  | nil => simp [schemeOk]
  | cons c tail =>
    simp only [schemeOk, Bool.and_eq_true, List.all_eq_true, Bool.or_eq_true, isAsciiAlphabetic_iff,
      isAsciiAlphanumeric_iff, beq_iff_eq, List.cons.injEq]
    constructor
    · rintro ⟨hc, htail⟩
      refine ⟨c, tail, hc, mem_kstar_oneOf.mpr fun x hx ↦ ?_, rfl, rfl⟩
      rcases htail x hx with (((h | h) | h) | h) | h <;> tauto
    · rintro ⟨_, _, hc, htail, rfl, rfl⟩
      refine ⟨hc, fun x hx ↦ ?_⟩
      rcases mem_kstar_oneOf.mp htail x hx with h | h | h | h | h <;> tauto

/-- No scheme contains a colon. -/
theorem colon_notMem_of_scheme {scheme : List Char} (h : scheme ∈ aliasScheme) : ':' ∉ scheme := by
  rw [aliasScheme, mem_oneOf_mul] at h
  obtain ⟨c, tail, hc, htail, rfl⟩ := h
  have hcolon : ¬ IsAlpha ':' := by
    unfold IsAlpha InRange
    decide
  intro hmem
  rcases List.mem_cons.mp hmem with rfl | hmem
  · exact hcolon hc
  · rcases mem_kstar_oneOf.mp htail _ hmem with h | h | h | h | h
    · exact hcolon h
    · unfold IsDigit InRange at h
      revert h
      decide
    · exact absurd h (by decide)
    · exact absurd h (by decide)
    · exact absurd h (by decide)

/-- The split at the first colon. -/
theorem splitOnceColon_eq_some_iff (cs scheme rest : List Char) :
    splitOnceColon cs = some (scheme, rest) ↔ cs = scheme ++ ':' :: rest ∧ ':' ∉ scheme := by
  induction cs generalizing scheme with
  | nil => simp [splitOnceColon]
  | cons c cs ih =>
    rw [splitOnceColon]
    split_ifs with hcolon
    · subst hcolon
      cases scheme with
      | nil => simp [eq_comm]
      | cons a scheme =>
        simp only [Option.some.injEq, Prod.mk.injEq, List.nil_eq, reduceCtorEq, false_and, false_iff,
          List.cons_append, List.cons.injEq, not_and]
        rintro ⟨rfl, -⟩ hnot
        exact hnot List.mem_cons_self
    · cases scheme with
      | nil =>
        simp only [Option.map_eq_some_iff, Prod.mk.injEq, reduceCtorEq, false_and, and_false,
          exists_false, List.nil_append, List.cons.injEq, hcolon]
      | cons a scheme =>
        simp only [Option.map_eq_some_iff, Prod.mk.injEq, List.cons.injEq, Prod.exists,
          List.cons_append, List.mem_cons, not_or]
        constructor
        · rintro ⟨scheme', rest', hsplit, ⟨rfl, rfl⟩, rfl⟩
          obtain ⟨rfl, hnot⟩ := (ih scheme').mp hsplit
          exact ⟨⟨rfl, rfl⟩, fun h ↦ hcolon h.symm, hnot⟩
        · rintro ⟨⟨rfl, hcs⟩, -, hnot⟩
          exact ⟨scheme, rest, (ih scheme).mpr ⟨hcs, hnot⟩, ⟨rfl, rfl⟩, rfl⟩

/-- The language of aliases, by the first colon. -/
theorem mem_aliasUri_iff (cs : List Char) :
    cs ∈ aliasUri ↔ ∃ scheme rest, splitOnceColon cs = some (scheme, rest) ∧ scheme ∈ aliasScheme ∧
      rest ≠ [] ∧ ∀ c ∈ rest, InRange 0x21 0x7E c := by
  rw [aliasUri, Language.mem_mul]
  simp only [mem_oneOf_mul]
  constructor
  · rintro ⟨scheme, hscheme, _, ⟨_, _, rfl, ⟨c, tail, hc, htail, rfl⟩, rfl⟩, rfl⟩
    refine ⟨scheme, c :: tail, ?_, hscheme, List.cons_ne_nil _ _, List.forall_mem_cons.mpr ⟨hc, ?_⟩⟩
    · exact (splitOnceColon_eq_some_iff _ _ _).mpr ⟨rfl, colon_notMem_of_scheme hscheme⟩
    · exact mem_kstar_oneOf.mp htail
  · rintro ⟨scheme, rest, hsplit, hscheme, hrest, hprintable⟩
    obtain ⟨rfl, -⟩ := (splitOnceColon_eq_some_iff _ _ _).mp hsplit
    obtain ⟨c, tail, rfl⟩ := List.exists_cons_of_ne_nil hrest
    obtain ⟨hc, htail⟩ := List.forall_mem_cons.mp hprintable
    exact ⟨scheme, hscheme, _, ⟨_, _, rfl, ⟨c, tail, hc, mem_kstar_oneOf.mpr htail, rfl⟩, rfl⟩, rfl⟩

/-- The recogniser accepts the aliases. -/
theorem recogniseUri_eq_ok_iff [Primitives] (uri : String) : recogniseUri uri = .ok () ↔ IsAlias uri := by
  rw [IsAlias, mem_aliasUri_iff, recogniseUri]
  by_cases hlength : 1 ≤ uri.utf8ByteSize ∧ uri.utf8ByteSize ≤ 512
  · have hgate : ¬ ((uri.isEmpty || decide (maxAlsoKnownAsUriLen < uri.utf8ByteSize)) = true) := by
      obtain ⟨hpos, hle⟩ := hlength
      have hne : uri ≠ "" := by
        rintro rfl
        exact absurd hpos (by decide)
      simp [hne, maxAlsoKnownAsUriLen, Nat.not_lt.mpr hle]
    rw [if_neg hgate]
    simp only [hlength, true_and]
    cases hsplit : splitOnceColon uri.toList with
    | none => simp
    | some parts =>
      obtain ⟨scheme, rest⟩ := parts
      have hparts : (∃ scheme' rest', some (scheme, rest) = some (scheme', rest') ∧
          scheme' ∈ aliasScheme ∧ rest' ≠ [] ∧ ∀ c ∈ rest', InRange 0x21 0x7E c) ↔
          schemeOk scheme = true ∧ rest ≠ [] ∧ rest.all isPrintable = true := by
        simp only [Option.some.injEq, Prod.mk.injEq, schemeOk_iff, List.all_eq_true, isPrintable_iff]
        constructor
        · rintro ⟨_, _, ⟨rfl, rfl⟩, h⟩
          exact h
        · exact fun h ↦ ⟨scheme, rest, ⟨rfl, rfl⟩, h⟩
      rw [hparts]
      cases hscheme : schemeOk scheme with
      | false => simp [hscheme]
      | true => cases hall : rest.all isPrintable <;> cases rest <;> simp_all
  · have hgate : (uri.isEmpty || decide (maxAlsoKnownAsUriLen < uri.utf8ByteSize)) = true := by
      by_cases hempty : uri = ""
      · simp [hempty]
      · have hpos : 1 ≤ uri.utf8ByteSize := by
          rw [Nat.one_le_iff_ne_zero]
          simpa using hempty
        have hlong : maxAlsoKnownAsUriLen < uri.utf8ByteSize := by
          by_contra hnot
          exact hlength ⟨hpos, Nat.not_lt.mp hnot⟩
        simp [hlong]
    rw [if_pos hgate]
    simp only [reduceCtorEq, false_iff]
    rintro ⟨hpos, hle, -⟩
    exact hlength ⟨hpos, hle⟩

/-- The recogniser accepts at most thirty-two aliases, distinct or not. -/
theorem recogniseAlsoKnownAs_eq_ok_iff [Primitives] (uris : List String) :
    recogniseAlsoKnownAs uris = .ok () ↔ uris.length ≤ 32 ∧ ∀ uri ∈ uris, IsAlias uri := by
  have hall : ∀ l : List String, l.forM recogniseUri = .ok () ↔ ∀ uri ∈ l, IsAlias uri := by
    intro l
    induction l with
    | nil => simp [pure, Except.pure]
    | cons uri l ih =>
      change (recogniseUri uri >>= fun _ ↦ l.forM recogniseUri) = _ ↔ _
      rw [List.forall_mem_cons, ← recogniseUri_eq_ok_iff, ← ih]
      cases recogniseUri uri with
      | error e => simp [bind, Except.bind]
      | ok _ => exact ⟨fun h ↦ ⟨rfl, h⟩, fun h ↦ h.2⟩
  rw [recogniseAlsoKnownAs, ← hall]
  by_cases hmany : maxAlsoKnownAs < uris.length
  · rw [if_pos hmany]
    exact ⟨fun h ↦ by simp at h, fun h ↦ absurd h.1 (Nat.not_le.mpr hmany)⟩
  · rw [if_neg hmany]
    exact (and_iff_right (Nat.not_lt.mp hmany)).symm

/-! ### The aliases of a document -/

/-- A stored alias set: at most thirty-two aliases in strictly ascending order. -/
structure IsAliasSet (uris : List String) : Prop where
  length_le : uris.length ≤ 32
  aliases : ∀ uri ∈ uris, IsAlias uri
  sorted : uris.Pairwise (· < ·)

/-- What is stored of a list that is recognised. -/
theorem IsAliasSet.of_recognised [Primitives] {uris : List String}
    (h : recogniseAlsoKnownAs uris = .ok ()) :
    IsAliasSet (OrderedMaps.sortDedup uris) := by
  obtain ⟨hlength, haliases⟩ := (recogniseAlsoKnownAs_eq_ok_iff uris).mp h
  refine ⟨?_, fun uri huri ↦ haliases uri ((OrderedMaps.mem_sortDedup _ _).mp huri),
    OrderedMaps.pairwise_sortDedup uris⟩
  exact ((OrderedMaps.nodup_sortDedup uris).subperm
    fun uri huri ↦ (OrderedMaps.mem_sortDedup _ _).mp huri).length_le.trans hlength

theorem IsAliasSet.update {a : AlsoKnownAs} {uris : List String} {t : HlcTimestamp}
    (ha : IsAliasSet a.entries) (huris : IsAliasSet uris) :
    IsAliasSet (AlsoKnownAs.entries (LWWReg.update a uris t)) := by
  unfold LWWReg.update
  split_ifs
  · exact huris
  · exact ha

section Documents

variable [Primitives]

theorem CrdtState.alsoKnownAs_apply (s : CrdtState) (op : DeltaOp) (t : HlcTimestamp)
    (observed : List Dot) (hop : ∀ uris, op ≠ .setAlsoKnownAs uris) :
    (s.apply op t observed).alsoKnownAs = s.alsoKnownAs := by
  cases op with
  | setAlsoKnownAs uris => exact absurd rfl (hop uris)
  | _ => rfl

/-- A delta that is admitted keeps the aliases recognised. -/
theorem IsAliasSet.record {doc : Document} {d : SignedDelta} (haccepts : Accepts doc d)
    (h : IsAliasSet doc.alsoKnownAs.entries) : IsAliasSet (doc.record d).alsoKnownAs.entries := by
  by_cases hop : ∃ uris, d.op = .setAlsoKnownAs uris
  · obtain ⟨uris, hop⟩ := hop
    have hgates := ((staticGates_eq_ok_iff doc d).mp ⟨haccepts.gates, haccepts.canonical⟩).aliases
    have hrecord : (doc.record d).alsoKnownAs = doc.alsoKnownAs.set uris d.timestamp := by
      change (doc.toCrdtState.apply d.op d.timestamp _).alsoKnownAs = _
      rw [hop]
      rfl
    rw [hrecord]
    exact h.update (.of_recognised (hgates uris hop))
  · have hrecord : (doc.record d).alsoKnownAs = doc.alsoKnownAs :=
      CrdtState.alsoKnownAs_apply _ _ _ _ (not_exists.mp hop)
    rwa [hrecord]

theorem IsAliasSet.verifiedRun {source : Set SignedDelta} {doc doc' : Document}
    (hrun : VerifiedRun source doc doc') (h : IsAliasSet doc.alsoKnownAs.entries) :
    IsAliasSet doc'.alsoKnownAs.entries := by
  induction hrun with
  | refl => exact h
  | tail _ hstep ih =>
    obtain ⟨d, _, haccepts, _, rfl⟩ := hstep
    exact ih.record haccepts

/-- The aliases of a replica were recognised. -/
theorem Replica.isAliasSet {deltas : Set SignedDelta} {publicKeyMultibase : String} {doc : Document}
    (h : Replica deltas publicKeyMultibase doc) : IsAliasSet doc.alsoKnownAs.entries := by
  induction h with
  | new => exact ⟨Nat.zero_le _, fun _ h ↦ absurd h List.not_mem_nil, List.Pairwise.nil⟩
  | @merge doc d _ _ ih =>
    rcases Document.merge_fst_eq doc d with ⟨haccepts, heq⟩ | ⟨_, heq⟩
    · rw [heq]
      exact ih.record haccepts
    · rw [heq]
      exact ih
  | @mergeVerifiedDelta doc d _ hd ih => exact ih.verifiedRun (Document.mergeVerifiedDelta_run doc hd)
  | @mergeVerifiedBundle doc bundle _ hbundle ih =>
    exact ih.verifiedRun (Document.mergeVerifiedBundle_run doc hbundle)
  | @mergeState doc other _ _ ih ih' =>
    unfold Document.mergeState
    split_ifs
    · exact ih
    · exact ih.update ih'
  | load _ hload => exact hload.elim

end Documents

/-- A list of aliases is accepted when it has at most thirty-two entries that are each in the grammar,
repeated or not; and the aliases of every replica are distinct, at most thirty-two, and in the grammar. -/
theorem recogniseAlsoKnownAs_grammar [Primitives] :
    (∀ uris : List String, recogniseAlsoKnownAs uris = .ok () ↔
      uris.length ≤ 32 ∧ ∀ uri ∈ uris, IsAlias uri) ∧
    ∀ publicKeyMultibase doc, Replica Set.univ publicKeyMultibase doc →
      doc.alsoKnownAs.entries.length ≤ 32 ∧ doc.alsoKnownAs.entries.Nodup ∧
        ∀ uri ∈ doc.alsoKnownAs.entries, IsAlias uri := by
  refine ⟨recogniseAlsoKnownAs_eq_ok_iff, fun publicKeyMultibase doc hdoc ↦ ?_⟩
  have hset := hdoc.isAliasSet
  exact ⟨hset.length_le, hset.sorted.imp ne_of_lt, hset.aliases⟩

section Readable

attribute [local instance] Primitives.readable

/-- A list with a repeated alias is accepted. -/
theorem recogniseAlsoKnownAs_repeated :
    recogniseAlsoKnownAs ["a:b", "a:b"] = .ok () ∧
      ¬ ∀ uris : List String, recogniseAlsoKnownAs uris = .ok () ↔
        uris.length ≤ 32 ∧ uris.Nodup ∧ ∀ uri ∈ uris, IsAlias uri := by
  have haccepted : recogniseAlsoKnownAs ["a:b", "a:b"] = .ok () := by decide
  refine ⟨haccepted, fun hall ↦ ?_⟩
  exact absurd ((hall _).mp haccepted).2.1 (by decide)

end Readable

end DidCrdt
