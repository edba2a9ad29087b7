import Mathlib.Data.List.Basic
import Mathlib.Data.List.TakeWhile
import Mathlib.Data.Int.Basic

/-!
# Reading and writing JSON

A reader takes a value off the front of a text. Texts are written as compact JSON: strings with the shortest
escapes (`quote`), integers in decimal (`decimal`), items separated by commas (`commaSeparated`). They are
read as JSON in general, with white space between tokens and any escape, into any type of values that a
`Builder` makes (`parse`). A text is `Readable` as a value when a reader with enough fuel takes exactly the
text off the front of a longer one. The rules say so of the written tokens, and of arrays and objects of
readable texts, so that a writer is inverted by induction on what it writes. Numbers that are not integers
are not read.
-/

set_option autoImplicit false
set_option relaxedAutoImplicit false

namespace JsonText

/-- Takes a value off the front of a text. -/
abbrev Reader (α : Type) : Type := List Char → Option (α × List Char)

/-! ### White space -/

def isSpace (c : Char) : Bool := c = ' ' || c = '\t' || c = '\n' || c = '\r'

def skipSpace (cs : List Char) : List Char := cs.dropWhile isSpace

theorem skipSpace_cons {c : Char} (h : isSpace c = false) (cs : List Char) :
    skipSpace (c :: cs) = c :: cs := by
  rw [skipSpace, List.dropWhile_cons_of_neg (by simp [h])]

/-! ### Strings -/

/-- The lowercase hexadecimal digit of a number below sixteen. -/
def hexDigit (n : ℕ) : Char := if n < 10 then Char.ofNat (48 + n) else Char.ofNat (87 + n)

/-- The value of a hexadecimal digit. -/
def hexValue (c : Char) : Option ℕ :=
  if '0' ≤ c ∧ c ≤ '9' then some (c.toNat - 48)
  else if 'a' ≤ c ∧ c ≤ 'f' then some (c.toNat - 87)
  else if 'A' ≤ c ∧ c ≤ 'F' then some (c.toNat - 55)
  else none

/-- A character of a string as it is written. -/
def escape (c : Char) : List Char :=
  if c = '"' then ['\\', '"']
  else if c = '\\' then ['\\', '\\']
  else if c.toNat = 8 then ['\\', 'b']
  else if c.toNat = 12 then ['\\', 'f']
  else if c = '\n' then ['\\', 'n']
  else if c = '\r' then ['\\', 'r']
  else if c = '\t' then ['\\', 't']
  else if c.toNat < 32 then
    ['\\', 'u', '0', '0', hexDigit (c.toNat / 16), hexDigit (c.toNat % 16)]
  else [c]

/-- A string as it is written. -/
def quote (s : String) : List Char := '"' :: (s.toList.flatMap escape ++ ['"'])

/-- The character that a letter after a backslash stands for. -/
def unescape (c : Char) : Option Char :=
  if c = '"' ∨ c = '\\' ∨ c = '/' then some c
  else if c = 'b' then some (Char.ofNat 8)
  else if c = 'f' then some (Char.ofNat 12)
  else if c = 'n' then some '\n'
  else if c = 'r' then some '\r'
  else if c = 't' then some '\t'
  else none

/-- The number that four hexadecimal digits stand for. -/
def codeUnit (a b c d : Char) : Option ℕ := do
  some (4096 * (← hexValue a) + 256 * (← hexValue b) + 16 * (← hexValue c) + (← hexValue d))

/-- The character of a code unit outside the surrogates. -/
def scalar (n : ℕ) : Option Char := if n.isValidChar then some (Char.ofNat n) else none

/-- The character of a pair of surrogates. -/
def surrogates (high low : ℕ) : Option Char :=
  if 0xD800 ≤ high ∧ high < 0xDC00 ∧ 0xDC00 ≤ low ∧ low < 0xE000 then
    scalar (0x10000 + 0x400 * (high - 0xD800) + (low - 0xDC00))
  else none

/-- A `u` escape after the `u`, which is one code unit or a pair of surrogates. -/
def readUnit : Reader Char
  | a :: b :: c :: d :: cs => do
    let unit ← codeUnit a b c d
    match scalar unit with
    | some s => some (s, cs)
    | none =>
      match cs with
      | '\\' :: 'u' :: a :: b :: c :: d :: cs =>
        ((codeUnit a b c d).bind (surrogates unit)).map fun s ↦ (s, cs)
      | _ => none
  | _ => none

/-- A character of a string. -/
def readChar : Reader Char
  | [] => none
  | c :: cs =>
    if c = '\\' then
      match cs with
      | [] => none
      | e :: cs => if e = 'u' then readUnit cs else (unescape e).map fun s ↦ (s, cs)
    else if c.toNat < 32 then none
    else some (c, cs)

/-- At most so many characters and a closing quote. -/
def readChars : ℕ → Reader (List Char)
  | 0, _ => none
  | _ + 1, [] => none
  | n + 1, c :: cs => if c = '"' then some ([], cs) else do
    let (c, cs) ← readChar (c :: cs)
    let (s, cs) ← readChars n cs
    some (c :: s, cs)

/-- The rest of a string, after its opening quote. -/
def readString : Reader String := fun cs ↦
  (readChars cs.length cs).map fun r ↦ (String.ofList r.1, r.2)

theorem hexValue_hexDigit {n : ℕ} (h : n < 16) : hexValue (hexDigit n) = some n := by
  revert n
  decide

theorem codeUnit_escape {n : ℕ} (h : n < 32) :
    codeUnit '0' '0' (hexDigit (n / 16)) (hexDigit (n % 16)) = some n := by
  have hzero : hexValue '0' = some 0 := by decide
  have hhigh : hexValue (hexDigit (n / 16)) = some (n / 16) := hexValue_hexDigit (by omega)
  have hlow : hexValue (hexDigit (n % 16)) = some (n % 16) := hexValue_hexDigit (by omega)
  simp only [codeUnit, hzero, hhigh, hlow, Option.bind_eq_bind, Option.bind_some, Option.some.injEq]
  omega

theorem scalar_toNat (c : Char) : scalar c.toNat = some c := by
  have h : c.toNat.isValidChar := c.valid
  rw [scalar, if_pos h, Char.ofNat_toNat]

/-- A written character is read back. -/
theorem readChar_escape (c : Char) (cs : List Char) : readChar (escape c ++ cs) = some (c, cs) := by
  unfold escape
  split_ifs with hquote hslash hback hfeed hline hreturn htab hcontrol
  · subst hquote
    simp [readChar, unescape]
  · subst hslash
    simp [readChar, unescape]
  · obtain rfl : c = Char.ofNat 8 := by rw [← hback, Char.ofNat_toNat]
    simp [readChar, unescape]
  · obtain rfl : c = Char.ofNat 12 := by rw [← hfeed, Char.ofNat_toNat]
    simp [readChar, unescape]
  · subst hline
    simp [readChar, unescape]
  · subst hreturn
    simp [readChar, unescape]
  · subst htab
    simp [readChar, unescape]
  · simp [readChar, readUnit, codeUnit_escape hcontrol, scalar_toNat]
  · simp [readChar, hslash, hcontrol]

/-- A written character does not begin with a quote. -/
theorem escape_eq_cons (c : Char) : ∃ a as, escape c = a :: as ∧ a ≠ '"' := by
  unfold escape
  split_ifs <;> simp_all

theorem readChars_escapes (s rest : List Char) {n : ℕ} (hn : s.length < n) :
    readChars n (s.flatMap escape ++ '"' :: rest) = some (s, rest) := by
  induction s generalizing n with
  | nil =>
    obtain ⟨m, rfl⟩ := Nat.exists_eq_add_of_lt hn
    simp [readChars]
  | cons c s ih =>
    obtain ⟨m, rfl⟩ := Nat.exists_eq_add_of_lt hn
    obtain ⟨a, as, hescape, hquote⟩ := escape_eq_cons c
    have hchar := readChar_escape c (s.flatMap escape ++ '"' :: rest)
    have hs := ih (n := s.length + 1 + m) (by omega)
    rw [List.flatMap_cons, List.append_assoc, hescape, List.cons_append, readChars, if_neg hquote,
      ← List.cons_append, ← hescape, hchar]
    simp only [Option.bind_eq_bind, Option.bind_some, List.length_cons, hs]

theorem length_le_escapes (s : List Char) : s.length ≤ (s.flatMap escape).length := by
  induction s with
  | nil => exact le_rfl
  | cons c s ih =>
    obtain ⟨a, as, hescape, -⟩ := escape_eq_cons c
    rw [List.flatMap_cons, hescape, List.length_append, List.length_cons, List.length_cons]
    omega

/-- A written string is read back. -/
theorem readString_quote (s : String) (rest : List Char) :
    readString (s.toList.flatMap escape ++ '"' :: rest) = some (s, rest) := by
  have hlength := length_le_escapes s.toList
  have hfuel : s.toList.length < (s.toList.flatMap escape ++ '"' :: rest).length := by
    rw [List.length_append, List.length_cons]
    omega
  rw [readString, readChars_escapes s.toList rest hfuel]
  simp

/-! ### Numbers -/

/-- An integer as it is written. -/
def decimal (n : ℤ) : List Char :=
  if n < 0 then '-' :: Nat.toDigits 10 n.natAbs else Nat.toDigits 10 n.natAbs

/-- Whether a number goes on after the digits of its integral part. -/
def goesOn (c : Char) : Bool := c.isDigit || c = '.' || c = 'e' || c = 'E'

/-- A text that goes on no number before it. -/
def Ends (cs : List Char) : Prop := ∀ c ∈ cs.head?, goesOn c = false

/-- A natural number without leading zeros. -/
def readNatural : Reader ℕ := fun cs ↦
  let digits := cs.takeWhile Char.isDigit
  let rest := cs.dropWhile Char.isDigit
  if digits = [] ∨ (digits.head? = some '0' ∧ digits ≠ ['0']) then none
  else if rest.head?.any goesOn then none
  else some (Nat.ofDigitChars 10 digits 0, rest)

def readInteger : Reader ℤ := fun cs ↦
  if cs.head? = some '-' then (readNatural cs.tail).map fun r ↦ (-(r.1 : ℤ), r.2)
  else (readNatural cs).map fun r ↦ ((r.1 : ℤ), r.2)

theorem isDigit_of_mem {n : ℕ} {c : Char} (h : c ∈ Nat.toDigits 10 n) : c.isDigit = true :=
  Nat.isDigit_of_mem_toDigits (by decide) (by decide) h

theorem digits_head (n : ℕ) : (Nat.toDigits 10 n).head? = some '0' → n = 0 := by
  induction n using Nat.strong_induction_on with
  | _ n ih =>
    intro h
    rcases lt_or_ge n 10 with hlt | hge
    · have hdigit : ∀ m < 10, [Nat.digitChar m].head? = some '0' → m = 0 := by decide
      rw [Nat.toDigits_of_lt_base hlt] at h
      exact hdigit n hlt h
    · rw [Nat.toDigits_of_base_le (by decide) hge,
        List.head?_append_of_ne_nil _ Nat.toDigits_ne_nil] at h
      have hzero := ih (n / 10) (by omega) h
      omega

theorem readNatural_digits (n : ℕ) {rest : List Char} (h : Ends rest) :
    readNatural (Nat.toDigits 10 n ++ rest) = some (n, rest) := by
  have hdigits : ∀ c ∈ Nat.toDigits 10 n, c.isDigit = true := fun c hc ↦ isDigit_of_mem hc
  have hrest : ∀ c ∈ rest.head?, c.isDigit = false := by
    intro c hc
    have := h c hc
    simp_all [goesOn]
  have htake : (Nat.toDigits 10 n ++ rest).takeWhile Char.isDigit = Nat.toDigits 10 n := by
    rw [List.takeWhile_append_of_pos hdigits]
    cases rest with
    | nil => simp
    | cons c cs => simp [hrest c rfl]
  have hdrop : (Nat.toDigits 10 n ++ rest).dropWhile Char.isDigit = rest := by
    rw [List.dropWhile_append_of_pos hdigits]
    cases rest with
    | nil => simp
    | cons c cs => simp [hrest c rfl]
  have hzero : ¬((Nat.toDigits 10 n).head? = some '0' ∧ Nat.toDigits 10 n ≠ ['0']) := by
    rintro ⟨hhead, hne⟩
    rw [digits_head n hhead] at hne
    exact hne (by decide)
  have hends : ¬rest.head?.any goesOn = true := by
    cases rest with
    | nil => simp
    | cons c cs => simp [h c rfl]
  simp only [readNatural, htake, hdrop]
  rw [if_neg (by simp [Nat.toDigits_ne_nil, hzero]), if_neg hends, Nat.ofDigitChars_ten_toDigits]

/-- A written integer is read back. -/
theorem readInteger_decimal (n : ℤ) {rest : List Char} (h : Ends rest) :
    readInteger (decimal n ++ rest) = some (n, rest) := by
  rw [decimal]
  split_ifs with hneg
  · simp only [readInteger, List.cons_append, List.head?_cons, if_true, List.tail_cons,
      readNatural_digits _ h, Option.map_some, Option.some.injEq, Prod.mk.injEq, and_true]
    omega
  · have hhead : (Nat.toDigits 10 n.natAbs ++ rest).head? ≠ some '-' := by
      intro hminus
      rw [List.head?_append_of_ne_nil _ Nat.toDigits_ne_nil] at hminus
      exact absurd (isDigit_of_mem (List.mem_of_mem_head? hminus)) (by decide)
    rw [readInteger, if_neg hhead, readNatural_digits _ h]
    simp only [Option.map_some, Option.some.injEq, Prod.mk.injEq, and_true]
    omega

/-! ### Separated items -/

section Items

variable {α β : Type}

/-- Texts separated by commas. -/
def commaSeparated (texts : List (List Char)) : List Char := [','].intercalate texts

/-- At most so many items, up to the closing character. -/
def readItems (read : Reader α) (close : Char) : ℕ → Reader (List α)
  | 0, _ => none
  | n + 1, cs => do
    let (item, cs) ← read (skipSpace cs)
    match skipSpace cs with
    | [] => none
    | c :: cs =>
      if c = ',' then (readItems read close n cs).map fun r ↦ (item :: r.1, r.2)
      else if c = close then some ([item], cs)
      else none

/-- The items of an array or an object, which may have none. -/
def readList (read : Reader α) (close : Char) (n : ℕ) : Reader (List α) := fun cs ↦
  match skipSpace cs with
  | [] => none
  | c :: cs => if c = close then some ([], cs) else readItems read close n (c :: cs)

/-- A text that begins with a token, and not with a closing character. -/
def Opens (text : List Char) : Prop :=
  ∃ c cs, text = c :: cs ∧ isSpace c = false ∧ c ≠ ']' ∧ c ≠ '}'

/-- The reader takes exactly the text off the front of a longer one. -/
def Reads (read : Reader α) (text : List Char) (a : α) : Prop :=
  ∀ rest, Ends rest → read (text ++ rest) = some (a, rest)

theorem Opens.skipSpace_append {text : List Char} (h : Opens text) (rest : List Char) :
    skipSpace (text ++ rest) = text ++ rest := by
  obtain ⟨c, cs, rfl, hspace, -, -⟩ := h
  rw [List.cons_append, skipSpace_cons hspace]

theorem length_le_of_mem {text : List Char} {texts : List (List Char)} (h : text ∈ texts) :
    text.length ≤ (commaSeparated texts).length := by
  induction texts with
  | nil => simp at h
  | cons t ts ih =>
    cases ts with
    | nil =>
      obtain rfl := List.mem_singleton.mp h
      simp [commaSeparated]
    | cons t' ts =>
      have hlength : (commaSeparated (t :: t' :: ts)).length =
          t.length + 1 + (commaSeparated (t' :: ts)).length := by
        simp [commaSeparated, List.intercalate_cons_cons]
        omega
      rcases List.mem_cons.mp h with rfl | hmem
      · omega
      · have := ih hmem
        omega

theorem length_le_commaSeparated (texts : List (List Char)) :
    texts.length ≤ (commaSeparated texts).length + 1 := by
  induction texts with
  | nil => simp
  | cons t ts ih =>
    cases ts with
    | nil => simp
    | cons t' ts =>
      have hlength : (commaSeparated (t :: t' :: ts)).length =
          t.length + 1 + (commaSeparated (t' :: ts)).length := by
        simp [commaSeparated, List.intercalate_cons_cons]
        omega
      rw [List.length_cons, hlength]
      omega

variable {read : Reader α} {close : Char} {write : β → List Char} {value : β → α}

/-- Items that are readable one by one are readable as a list. -/
theorem readItems_commaSeparated (hclose : close = ']' ∨ close = '}') (b : β) (bs : List β)
    (h : ∀ x ∈ b :: bs, Opens (write x) ∧ Reads read (write x) (value x)) {n : ℕ}
    (hn : bs.length < n) (rest : List Char) :
    readItems read close n (commaSeparated ((b :: bs).map write) ++ close :: rest) =
      some ((b :: bs).map value, rest) := by
  induction bs generalizing b n with
  | nil =>
    obtain ⟨m, rfl⟩ := Nat.exists_eq_add_of_lt hn
    obtain ⟨hopens, hreads⟩ := h b List.mem_cons_self
    have hends : Ends (close :: rest) := by
      rcases hclose with rfl | rfl <;> simp [Ends, goesOn]
    have hspace : isSpace close = false := by rcases hclose with rfl | rfl <;> decide
    have hcomma : close ≠ ',' := by rcases hclose with rfl | rfl <;> decide
    simp only [commaSeparated, List.map_cons, List.map_nil, List.intercalate_singleton,
      readItems, hopens.skipSpace_append, hreads _ hends, Option.bind_eq_bind, Option.bind_some,
      skipSpace_cons hspace, if_neg hcomma, if_true]
  | cons b' bs ih =>
    obtain ⟨m, rfl⟩ := Nat.exists_eq_add_of_lt hn
    obtain ⟨hopens, hreads⟩ := h b List.mem_cons_self
    have htail := ih b' (fun x hx ↦ h x (List.mem_cons_of_mem _ hx)) (n := bs.length + 1 + m)
      (by omega)
    have hcons : commaSeparated ((b :: b' :: bs).map write) ++ close :: rest =
        write b ++ ',' :: (commaSeparated ((b' :: bs).map write) ++ close :: rest) := by
      simp [commaSeparated, List.intercalate_cons_cons]
    generalize commaSeparated ((b' :: bs).map write) ++ close :: rest = tail at hcons htail
    have hends : Ends (',' :: tail) := by simp [Ends, goesOn]
    have hspace : isSpace ',' = false := by decide
    rw [hcons]
    simp only [List.length_cons, readItems, hopens.skipSpace_append, hreads _ hends,
      Option.bind_eq_bind, Option.bind_some, skipSpace_cons hspace, if_true, htail, Option.map_some,
      List.map_cons]

theorem readList_commaSeparated (hclose : close = ']' ∨ close = '}') (bs : List β)
    (h : ∀ x ∈ bs, Opens (write x) ∧ Reads read (write x) (value x)) {n : ℕ}
    (hn : bs.length ≤ n) (rest : List Char) :
    readList read close n (commaSeparated (bs.map write) ++ close :: rest) =
      some (bs.map value, rest) := by
  cases bs with
  | nil =>
    have hspace : isSpace close = false := by rcases hclose with rfl | rfl <;> decide
    simp [readList, commaSeparated, skipSpace_cons hspace]
  | cons b bs =>
    have hitems := readItems_commaSeparated hclose b bs h (Nat.succ_le_iff.mp hn) rest
    obtain ⟨hopens, -⟩ := h b List.mem_cons_self
    have htext : ∃ c cs, commaSeparated ((b :: bs).map write) ++ close :: rest = c :: cs ∧
        isSpace c = false ∧ c ≠ close := by
      obtain ⟨c, cs, hwrite, hspace, hbracket, hbrace⟩ := hopens
      have hne : c ≠ close := by rcases hclose with rfl | rfl <;> assumption
      cases bs <;> simp [commaSeparated, hwrite, List.intercalate_cons_cons, hspace, hne]
    obtain ⟨c, cs, htext, hspace, hne⟩ := htext
    rw [htext] at hitems ⊢
    simp only [readList, skipSpace_cons hspace, if_neg hne, hitems]

end Items

/-! ### Values -/

/-- How the values of a type are made of the parts of a text. -/
structure Builder (V : Type) where
  null : V
  bool : Bool → V
  integer : ℤ → V
  string : String → V
  array : List V → V
  object : List (String × V) → V

section Values

variable {V : Type}

/-- The rest of a literal, after its first character. -/
def readRest (literal : List Char) (v : V) : Reader V := fun cs ↦
  if literal.isPrefixOf cs then some (v, cs.drop literal.length) else none

/-- A key, a colon and a value. -/
def readMember (read : Reader V) : Reader (String × V)
  | [] => none
  | c :: cs => if c = '"' then do
      let (key, cs) ← readString cs
      match skipSpace cs with
      | [] => none
      | c :: cs =>
        if c = ':' then (read (skipSpace cs)).map fun r ↦ ((key, r.1), r.2) else none
    else none

/-- A value that begins the text, with at most so many arrays and objects around one another and
items next to one another. -/
def readValue (build : Builder V) : ℕ → Reader V
  | 0, _ => none
  | _ + 1, [] => none
  | n + 1, c :: cs =>
    if c = '"' then (readString cs).map fun r ↦ (build.string r.1, r.2)
    else if c = '[' then
      (readList (readValue build n) ']' n cs).map fun r ↦ (build.array r.1, r.2)
    else if c = '{' then
      (readList (readMember (readValue build n)) '}' n cs).map fun r ↦ (build.object r.1, r.2)
    else if c = 'n' then readRest ['u', 'l', 'l'] build.null cs
    else if c = 't' then readRest ['r', 'u', 'e'] (build.bool true) cs
    else if c = 'f' then readRest ['a', 'l', 's', 'e'] (build.bool false) cs
    else (readInteger (c :: cs)).map fun r ↦ (build.integer r.1, r.2)

/-- A member as it is written. -/
def member (key : String) (text : List Char) : List Char := quote key ++ ':' :: text

theorem length_le_member (key : String) (text : List Char) : text.length ≤ (member key text).length := by
  rw [member, List.length_append, List.length_cons]
  omega

/-- The value that a whole text stands for. -/
def parse (build : Builder V) (text : List Char) : Option V :=
  match readValue build (text.length + 1) (skipSpace text) with
  | some (v, rest) => if skipSpace rest = [] then some v else none
  | none => none

/-- The text stands for the value wherever a value is read. -/
def Readable (build : Builder V) (text : List Char) (v : V) : Prop :=
  Opens text ∧ ∀ n, text.length ≤ n → Reads (readValue build n) text v

section Rules

variable {build : Builder V} {β : Type} {write : β → List Char} {value : β → V}

theorem readable_null : Readable build ['n', 'u', 'l', 'l'] build.null := by
  refine ⟨⟨'n', _, rfl, by decide, by decide, by decide⟩, fun n hn rest _ ↦ ?_⟩
  obtain ⟨m, rfl⟩ := Nat.exists_eq_add_of_lt hn
  simp [readValue, readRest]

theorem readable_true : Readable build ['t', 'r', 'u', 'e'] (build.bool true) := by
  refine ⟨⟨'t', _, rfl, by decide, by decide, by decide⟩, fun n hn rest _ ↦ ?_⟩
  obtain ⟨m, rfl⟩ := Nat.exists_eq_add_of_lt hn
  simp [readValue, readRest]

theorem readable_false : Readable build ['f', 'a', 'l', 's', 'e'] (build.bool false) := by
  refine ⟨⟨'f', _, rfl, by decide, by decide, by decide⟩, fun n hn rest _ ↦ ?_⟩
  obtain ⟨m, rfl⟩ := Nat.exists_eq_add_of_lt hn
  simp [readValue, readRest]

theorem readable_string (s : String) : Readable build (quote s) (build.string s) := by
  refine ⟨⟨'"', _, rfl, by decide, by decide, by decide⟩, fun n hn rest _ ↦ ?_⟩
  obtain ⟨m, rfl⟩ := Nat.exists_eq_add_of_lt hn
  simp [readValue, quote, readString_quote]

/-- An integer begins with a digit or a sign. -/
theorem decimal_eq_cons (n : ℤ) : ∃ c cs, decimal n = c :: cs ∧ (c.isDigit = true ∨ c = '-') := by
  rw [decimal]
  split_ifs with hneg
  · exact ⟨'-', _, rfl, Or.inr rfl⟩
  · obtain ⟨c, cs, hdigits⟩ := List.exists_cons_of_ne_nil (Nat.toDigits_ne_nil (n := n.natAbs) (b := 10))
    exact ⟨c, cs, hdigits, Or.inl (isDigit_of_mem (n := n.natAbs) (by simp [hdigits]))⟩

theorem readable_integer (n : ℤ) : Readable build (decimal n) (build.integer n) := by
  obtain ⟨c, cs, hdecimal, hc⟩ := decimal_eq_cons n
  have hfirst : ∀ d : Char, d.isDigit = false → d ≠ '-' → c ≠ d := by
    rintro d hdigit hminus rfl
    simp_all
  refine ⟨⟨c, cs, hdecimal, ?_, hfirst _ (by decide) (by decide), hfirst _ (by decide) (by decide)⟩,
    fun m hm rest hrest ↦ ?_⟩
  · simp [isSpace, hfirst]
  · have hread := readInteger_decimal n hrest
    rw [hdecimal] at hm hread ⊢
    obtain ⟨k, rfl⟩ := Nat.exists_eq_add_of_lt hm
    rw [List.cons_append] at hread ⊢
    rw [readValue, if_neg (hfirst _ (by decide) (by decide)), if_neg (hfirst _ (by decide) (by decide)),
      if_neg (hfirst _ (by decide) (by decide)), if_neg (hfirst _ (by decide) (by decide)),
      if_neg (hfirst _ (by decide) (by decide)), if_neg (hfirst _ (by decide) (by decide)), hread]
    rfl

/-- An array of readable items is readable. -/
theorem readable_array (bs : List β) (h : ∀ b ∈ bs, Readable build (write b) (value b)) :
    Readable build ('[' :: (commaSeparated (bs.map write) ++ [']'])) (build.array (bs.map value)) := by
  refine ⟨⟨'[', _, rfl, by decide, by decide, by decide⟩, fun n hn rest _ ↦ ?_⟩
  obtain ⟨m, rfl⟩ := Nat.exists_eq_add_of_lt hn
  set fuel := (commaSeparated (bs.map write) ++ [']']).length + m with hfuel
  rw [List.length_append, List.length_singleton] at hfuel
  have hcount := length_le_commaSeparated (bs.map write)
  rw [List.length_map] at hcount
  have hitems : ∀ b ∈ bs, Opens (write b) ∧ Reads (readValue build fuel) (write b) (value b) := by
    intro b hb
    have hlength := length_le_of_mem (List.mem_map_of_mem (f := write) hb)
    exact ⟨(h b hb).1, (h b hb).2 fuel (by omega)⟩
  have hlist := readList_commaSeparated (Or.inl rfl) bs hitems (n := fuel) (by omega) rest
  simp [readValue, hlist]

/-- A key and a readable value are a readable member. -/
theorem reads_member {text : List Char} {v : V} (k : String) {n : ℕ} (h : Readable build text v)
    (hn : text.length ≤ n) : Reads (readMember (readValue build n)) (member k text) (k, v) := by
  intro rest hrest
  have hspace : isSpace ':' = false := by decide
  simp only [member, quote, List.cons_append, List.append_assoc, List.nil_append, readMember, if_true,
    readString_quote, Option.bind_eq_bind, Option.bind_some, skipSpace_cons hspace,
    h.1.skipSpace_append, h.2 n hn rest hrest, Option.map_some]

/-- An object of readable members is readable. -/
theorem readable_object (bs : List β) (key : β → String)
    (h : ∀ b ∈ bs, Readable build (write b) (value b)) :
    Readable build
      ('\x7b' :: (commaSeparated (bs.map fun b ↦ member (key b) (write b)) ++ ['\x7d']))
      (build.object (bs.map fun b ↦ (key b, value b))) := by
  refine ⟨⟨'\x7b', _, rfl, by decide, by decide, by decide⟩, fun n hn rest _ ↦ ?_⟩
  obtain ⟨m, rfl⟩ := Nat.exists_eq_add_of_lt hn
  set fuel :=
    (commaSeparated (bs.map fun b ↦ member (key b) (write b)) ++ ['\x7d']).length + m with hfuel
  rw [List.length_append, List.length_singleton] at hfuel
  have hcount := length_le_commaSeparated (bs.map fun b ↦ member (key b) (write b))
  rw [List.length_map] at hcount
  have hmembers : ∀ b ∈ bs, Opens (member (key b) (write b)) ∧
      Reads (readMember (readValue build fuel)) (member (key b) (write b)) (key b, value b) := by
    intro b hb
    have hlength := length_le_of_mem
      (List.mem_map_of_mem (f := fun b ↦ member (key b) (write b)) hb)
    have hshorter := length_le_member (key b) (write b)
    exact ⟨⟨'"', _, rfl, by decide, by decide, by decide⟩,
      reads_member (key b) (h b hb) (by omega)⟩
  have hlist := readList_commaSeparated (Or.inr rfl) bs hmembers (n := fuel) (by omega) rest
  simp [readValue, hlist]

/-- A readable text is parsed. -/
theorem parse_of_readable {text : List Char} {v : V} (h : Readable build text v) :
    parse build text = some v := by
  have hends : Ends [] := by simp [Ends]
  have hspace := h.1.skipSpace_append []
  have hread := h.2 (text.length + 1) (Nat.le_succ _) [] hends
  rw [List.append_nil] at hspace hread
  rw [parse, hspace, hread]
  rfl

end Rules

end Values

end JsonText
