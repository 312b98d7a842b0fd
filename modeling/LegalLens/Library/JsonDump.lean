import LegalLens.Library.IntText
import LegalLens.Library.JsonParser

/-!
# Writing JSON texts

A writer has its blanks and its escapes; how the escapes read is part of it. Two writers are
given: one without blanks that keeps every character it may keep, and one that writes ASCII only,
with a surrogate pair for a character outside the basic plane. What a writer writes is read back
as the value, whatever the writer. A number is written as the literal it has; a writer and a decoder
that convert integers refuse those with too many digits.
-/

namespace JsonText

/-- Data that can be written. A number is the literal that is written for it. -/
inductive Value where
  | null
  | bool (value : Bool)
  | number (token : {token : List Char // IsNumber token})
  | string (text : List Char)
  | array (elements : List Value)
  | object (members : List (List Char × Value))

mutual

def Value.json : Value → Json
  | .null => .null
  | .bool b => .bool b
  | .number token => .number token
  | .string text => .string (codePoints text)
  | .array vs => .array (jsonElements vs)
  | .object ms => .object (jsonMembers ms)

def jsonElements : List Value → List Json
  | [] => []
  | v :: vs => v.json :: jsonElements vs

def jsonMembers : List (List Char × Value) → List (List ℕ × Json)
  | [] => []
  | (key, v) :: ms => (codePoints key, v.json) :: jsonMembers ms

end

/-- The character of a code point; a surrogate has none. -/
def charOf (n : ℕ) : Option Char := if n.isValidChar then some (Char.ofNat n) else none

def textOf (points : List ℕ) : Option (List Char) := points.mapM charOf

mutual

/-- The data that were read, unless a text has a surrogate. -/
def Value.ofJson : Json → Option Value
  | .null => some .null
  | .bool b => some (.bool b)
  | .number token =>
    if h : JsonText.number token = some (token, []) then
      some (.number ⟨token, (number_spec h).2⟩)
    else none
  | .string points => (textOf points).map .string
  | .array vs => (elementsOfJson vs).map .array
  | .object ms => (membersOfJson ms).map .object

def elementsOfJson : List Json → Option (List Value)
  | [] => some []
  | v :: vs => do
    let v ← Value.ofJson v
    let vs ← elementsOfJson vs
    return v :: vs

def membersOfJson : List (List ℕ × Json) → Option (List (List Char × Value))
  | [] => some []
  | (key, v) :: ms => do
    let key ← textOf key
    let v ← Value.ofJson v
    let ms ← membersOfJson ms
    return (key, v) :: ms

end

theorem charOf_toNat (c : Char) : charOf c.toNat = some c :=
  (if_pos c.valid).trans (congrArg some (Char.ofNat_toNat c))

theorem textOf_codePoints (text : List Char) : textOf (codePoints text) = some text := by
  induction text with
  | nil => rfl
  | cons c text ih =>
    rw [textOf, codePoints] at ih
    simp [textOf, codePoints, charOf_toNat, ih]

theorem number_of_isNumber {token : List Char} (h : IsNumber token) :
    number token = some (token, []) := by
  have hend : Delimited [] := by rintro c ⟨⟩
  simpa using number_append h hend

mutual

theorem Value.ofJson_json : ∀ v : Value, Value.ofJson v.json = some v
  | .null => rfl
  | .bool _ => rfl
  | .number token => dif_pos (number_of_isNumber token.2)
  | .string text => by rw [Value.json, Value.ofJson, textOf_codePoints, Option.map_some]
  | .array vs => by rw [Value.json, Value.ofJson, elementsOfJson_json vs, Option.map_some]
  | .object ms => by rw [Value.json, Value.ofJson, membersOfJson_json ms, Option.map_some]

theorem elementsOfJson_json : ∀ vs : List Value, elementsOfJson (jsonElements vs) = some vs
  | [] => rfl
  | v :: vs => by
    rw [jsonElements, elementsOfJson, Value.ofJson_json v, elementsOfJson_json vs]
    rfl

theorem membersOfJson_json :
    ∀ ms : List (List Char × Value), membersOfJson (jsonMembers ms) = some ms
  | [] => rfl
  | (key, v) :: ms => by
    rw [jsonMembers, membersOfJson, textOf_codePoints, Value.ofJson_json v, membersOfJson_json ms]
    rfl

end

/-! ## Integers -/

def intToken : ℤ → List Char
  | .ofNat n => Nat.toDigits 10 n
  | .negSucc n => '-' :: Nat.toDigits 10 (n + 1)

theorem head?_toDigits {n : ℕ} (h : (Nat.toDigits 10 n).head? = some '0') : n = 0 := by
  induction n using Nat.strong_induction_on with
  | _ n ih =>
    by_cases hn : n < 10
    · rw [Nat.toDigits_of_lt_base hn] at h
      exact Nat.digitChar_eq_zero.mp (Option.some.inj h)
    · have hn := not_lt.mp hn
      rw [Nat.toDigits_of_base_le (by decide) hn,
        List.head?_append_of_ne_nil _ Nat.toDigits_ne_nil] at h
      have hzero := ih (n / 10) (by omega) h
      omega

theorem isInteger_toDigits (n : ℕ) : IsInteger (Nat.toDigits 10 n) := by
  refine ⟨⟨Nat.toDigits_ne_nil, fun d hd => ?_⟩, fun h => ?_⟩
  · exact Nat.isDigit_of_mem_toDigits (by decide) (by decide) hd
  · rw [head?_toDigits h, Nat.toDigits_zero]

theorem isNumber_intToken (n : ℤ) : IsNumber (intToken n) := by
  cases n with
  | ofNat n =>
    exact ⟨[], _, [], [], by simp [intToken], Or.inl rfl, isInteger_toDigits n, Or.inl rfl,
      Or.inl rfl⟩
  | negSucc n =>
    exact ⟨['-'], _, [], [], by simp [intToken], Or.inr rfl, isInteger_toDigits (n + 1), Or.inl rfl,
      Or.inl rfl⟩

def Value.int (n : ℤ) : Value := .number ⟨intToken n, isNumber_intToken n⟩

/-- The integer of a literal without a fraction and an exponent. -/
def ofToken : List Char → Option ℤ
  | '-' :: ds => if ds.all Char.isDigit then some (-(Nat.ofDigitChars 10 ds 0 : ℤ)) else none
  | ds => if ds.all Char.isDigit then some (Nat.ofDigitChars 10 ds 0 : ℤ) else none

theorem all_isDigit_toDigits (n : ℕ) : (Nat.toDigits 10 n).all Char.isDigit = true :=
  List.all_eq_true.mpr fun _ hd => Nat.isDigit_of_mem_toDigits (by decide) (by decide) hd

theorem ofToken_intToken (n : ℤ) : ofToken (intToken n) = some n := by
  cases n with
  | ofNat n =>
    have hsign : ∀ ds, Nat.toDigits 10 n ≠ '-' :: ds := by
      intro ds h
      have hdigit := List.all_eq_true.mp (all_isDigit_toDigits n) '-' (h ▸ List.mem_cons_self)
      cases hdigit
    rw [intToken, ofToken]
    · rw [if_pos (all_isDigit_toDigits n), Nat.ofDigitChars_toDigits (by decide) (by decide)]
      rfl
    · exact hsign
  | negSucc n =>
    rw [intToken, ofToken, if_pos (all_isDigit_toDigits (n + 1)),
      Nat.ofDigitChars_toDigits (by decide) (by decide)]
    rfl

/-! ## Writers -/

/-- How texts are written: the blanks behind a comma and a colon, and an escape for every
character with the units it reads as. -/
structure Style where
  blanks : List Char
  blank : blanks.all isBlank = true
  escape : Char → List Char
  units : Char → List ℕ
  quoted_escape : ∀ (c : Char) {text rest : List Char} {us : List ℕ}, Quoted text us rest →
    Quoted (escape c ++ text) (units c ++ us) rest
  combine_units : ∀ text : List Char, combine (text.flatMap units) = codePoints text

/-- No blanks, and no escapes but those that are needed. -/
def compact : Style where
  blanks := []
  blank := rfl
  escape := escapeChar
  units c := [c.toNat]
  quoted_escape c := fun h => quoted_escapeChar c h
  combine_units text := by
    rw [← List.map_eq_flatMap]
    exact combine_codePoints text

/-! ### Escapes for characters outside ASCII -/

def escapeUnit (n : ℕ) : List Char :=
  ['\\', 'u', Nat.digitChar (n / 0x1000), Nat.digitChar (n / 0x100 % 16),
    Nat.digitChar (n / 0x10 % 16), Nat.digitChar (n % 16)]

theorem hexValue_digitChar : ∀ d < 16, hexValue (Nat.digitChar d) = some d := by
  decide

theorem quoted_escapeUnit {n : ℕ} (hn : n < 0x10000) {text rest : List Char} {us : List ℕ}
    (h : Quoted text us rest) : Quoted (escapeUnit n ++ text) (n :: us) rest := by
  have hvalue : unitValue (Nat.digitChar (n / 0x1000)) (Nat.digitChar (n / 0x100 % 16))
      (Nat.digitChar (n / 0x10 % 16)) (Nat.digitChar (n % 16)) = some n := by
    simp only [unitValue, hexValue_digitChar (n / 0x1000) (by omega),
      hexValue_digitChar (n / 0x100 % 16) (by omega), hexValue_digitChar (n / 0x10 % 16) (by omega),
      hexValue_digitChar (n % 16) (by omega), Option.bind_eq_bind, Option.bind_some,
      Option.pure_def, Option.some.injEq]
    omega
  exact .unicode hvalue h

def highSurrogate (c : Char) : ℕ := 0xd800 + (c.toNat - 0x10000) / 0x400

def lowSurrogate (c : Char) : ℕ := 0xdc00 + (c.toNat - 0x10000) % 0x400

def escapeAscii (c : Char) : List Char :=
  match shortEscape c with
  | some e => ['\\', e]
  | none =>
    if 0x20 ≤ c.toNat ∧ c.toNat ≤ 0x7e then [c]
    else if c.toNat < 0x10000 then escapeUnit c.toNat
    else escapeUnit (highSurrogate c) ++ escapeUnit (lowSurrogate c)

/-- The code units of a character. -/
def asciiUnits (c : Char) : List ℕ :=
  if c.toNat < 0x10000 then [c.toNat] else [highSurrogate c, lowSurrogate c]

theorem toNat_lt (c : Char) : c.toNat < 0xd800 ∨ 0xdfff < c.toNat ∧ c.toNat < 0x110000 := c.valid

theorem toNat_lt_of_shortEscape {c e : Char} (h : shortEscape c = some e) : c.toNat < 0x10000 := by
  unfold shortEscape at h
  split at h
  next => decide
  next => decide
  next => decide
  next => decide
  next => decide
  next => decide
  next => decide
  next => cases h

theorem quoted_escapeAscii (c : Char) {text rest : List Char} {us : List ℕ}
    (h : Quoted text us rest) : Quoted (escapeAscii c ++ text) (asciiUnits c ++ us) rest := by
  unfold escapeAscii asciiUnits
  split
  next e he =>
    rw [if_pos (toNat_lt_of_shortEscape he)]
    exact .escape (escapeValue_of_shortEscape he) h
  next hnone =>
    have hc := toNat_lt c
    split_ifs with hprintable hsmall hsmall
    · exact .literal (plain_of_shortEscape hnone hprintable.1) h
    · omega
    · exact quoted_escapeUnit hsmall h
    · have hhigh : highSurrogate c < 0x10000 := by unfold highSurrogate; omega
      have hlow : lowSurrogate c < 0x10000 := by unfold lowSurrogate; omega
      rw [List.append_assoc]
      exact quoted_escapeUnit hhigh (quoted_escapeUnit hlow h)

theorem combine_cons {n : ℕ} (h : ¬IsHigh n) (units : List ℕ) :
    combine (n :: units) = n :: combine units := by
  cases units with
  | nil => rfl
  | cons lo units => rw [combine, if_neg fun hpair => h hpair.1]

theorem combine_asciiUnits (c : Char) (units : List ℕ) :
    combine (asciiUnits c ++ units) = c.toNat :: combine units := by
  have hc := toNat_lt c
  unfold asciiUnits
  split_ifs with hsmall
  · apply combine_cons
    rintro ⟨hle, hlt⟩
    omega
  · have hpair : IsHigh (highSurrogate c) ∧ IsLow (lowSurrogate c) := by
      simp only [IsHigh, IsLow, highSurrogate, lowSurrogate]
      omega
    have hvalue : 0x10000 + (highSurrogate c - 0xd800) * 0x400 + (lowSurrogate c - 0xdc00) =
        c.toNat := by
      simp only [highSurrogate, lowSurrogate]
      omega
    rw [List.cons_append, List.cons_append, List.nil_append, combine, if_pos hpair, hvalue]

/-- Only ASCII is written, with a blank behind a comma and a colon. -/
def ascii : Style where
  blanks := [' ']
  blank := rfl
  escape := escapeAscii
  units := asciiUnits
  quoted_escape c := fun h => quoted_escapeAscii c h
  combine_units text := by
    induction text with
    | nil => rfl
    | cons c text ih =>
      rw [List.flatMap_cons, combine_asciiUnits, ih]
      rfl

namespace Style

variable (style : Style)

def quote (text : List Char) : List Char := '"' :: (text.flatMap style.escape ++ ['"'])

mutual

def dumps : Value → List Char
  | .null => "null".toList
  | .bool true => "true".toList
  | .bool false => "false".toList
  | .number token => token
  | .string text => style.quote text
  | .array [] => ['[', ']']
  | .array (v :: vs) => '[' :: (dumps v ++ dumpsElements vs)
  | .object [] => ['\x7b', '\x7d']
  | .object ((key, v) :: ms) =>
    '\x7b' :: (style.quote key ++ ':' :: (style.blanks ++ dumps v) ++ dumpsMembers ms)

def dumpsElements : List Value → List Char
  | [] => [']']
  | v :: vs => ',' :: (style.blanks ++ dumps v ++ dumpsElements vs)

def dumpsMembers : List (List Char × Value) → List Char
  | [] => ['\x7d']
  | (key, v) :: ms =>
    ',' :: (style.blanks ++ (style.quote key ++ ':' :: (style.blanks ++ dumps v)) ++
      dumpsMembers ms)

end

/-- A writer that converts integers to texts, and raises for one with too many digits. -/
def dumpsInts (digits : ℕ) (v : Value) : Option (List Char) :=
  if v.json.within digits then some (style.dumps v) else none

example : ascii.dumps (.array [.string ['é'], .int (-1)]) =
    ['[', '"', '\\', 'u', '0', '0', 'e', '9', '"', ',', ' ', '-', '1', ']'] := by rfl

/-! ## Reading back -/

theorem quoted_quote (text rest : List Char) :
    ∃ units, Quoted (text.flatMap style.escape ++ '"' :: rest) units rest ∧
      combine units = codePoints text := by
  refine ⟨text.flatMap style.units, ?_, style.combine_units text⟩
  induction text with
  | nil => exact .close
  | cons c text ih =>
    rw [List.flatMap_cons, List.flatMap_cons, List.append_assoc]
    exact style.quoted_escape c ih

theorem skip_blanks (text : List Char) : skip (style.blanks ++ text) = skip text :=
  List.dropWhile_append_of_pos (List.all_eq_true.mp style.blank)

theorem reads_string (text rest : List Char) :
    Reads (.value (.string (codePoints text))) (style.quote text ++ rest) rest := by
  obtain ⟨units, hread, hunits⟩ := style.quoted_quote text rest
  rw [← hunits]
  simpa [quote] using Reads.string hread

theorem skip_eq_of_reads {v : Json} {text rest : List Char} (h : Reads (.value v) text rest) :
    skip text = text := by
  cases h with
  | null h | true h | false h =>
    subst h
    exact skip_cons_of_not rfl _
  | number h htoken =>
    obtain ⟨c, token, rfl, hc⟩ := htoken.head
    subst h
    apply skip_cons_of_not
    rcases hc with rfl | hc
    · rfl
    · simp only [isBlank, Bool.or_eq_false_iff, decide_eq_false_iff_not]
      refine ⟨⟨⟨?_, ?_⟩, ?_⟩, ?_⟩ <;> rintro rfl <;> cases hc
  | string | emptyArray | array | emptyObject | object => exact skip_cons_of_not rfl _

theorem reads_skip {v : Json} {text rest : List Char} (h : Reads (.value v) text rest) :
    Reads (.value v) (skip (style.blanks ++ text)) rest := by
  rwa [skip_blanks, skip_eq_of_reads h]

theorem reads_member {key body rest : List Char} {v : Json} {text : List Char}
    (htext : skip text = skip (style.quote key ++ ':' :: (style.blanks ++ body)))
    (hbody : Reads (.value v) body rest) : Reads (.member (codePoints key) v) text rest := by
  obtain ⟨units, hread, hunits⟩ := style.quoted_quote key (':' :: (style.blanks ++ body))
  have hquote : skip (style.quote key ++ ':' :: (style.blanks ++ body)) =
      '"' :: (key.flatMap style.escape ++ '"' :: ':' :: (style.blanks ++ body)) := by
    rw [quote, List.cons_append, skip_cons_of_not rfl, List.append_assoc]
    rfl
  rw [← hunits]
  exact .member (htext.trans hquote) hread (skip_cons_of_not rfl _) (style.reads_skip hbody)

mutual

/-- What is written reads as the data. -/
theorem reads_dumps : ∀ (v : Value) (rest : List Char),
    Reads (.value v.json) (style.dumps v ++ rest) rest
  | .null, _ => .null rfl
  | .bool true, _ => .true rfl
  | .bool false, _ => .false rfl
  | .number token, _ => .number rfl token.2
  | .string text, rest => style.reads_string text rest
  | .array [], _ => .emptyArray rfl
  | .array (v :: vs), rest => by
    have hv : ∀ rest, Reads (.value v.json) (skip (style.dumps v ++ rest)) rest := fun rest => by
      rw [skip_eq_of_reads (reads_dumps v rest)]
      exact reads_dumps v rest
    rw [dumps, List.cons_append]
    exact .array (reads_elements v vs (style.dumps v) hv rest)
  | .object [], _ => .emptyObject rfl
  | .object ((key, v) :: ms), rest => by
    have hm : ∀ rest, Reads (.member (codePoints key) v.json)
        (style.quote key ++ ':' :: (style.blanks ++ style.dumps v) ++ rest) rest := fun rest =>
      style.reads_member (by simp) (reads_dumps v rest)
    rw [dumps, List.cons_append]
    exact .object (reads_members key v ms _ hm rest)

theorem reads_elements : ∀ (w : Value) (vs : List Value) (text : List Char),
    (∀ rest, Reads (.value w.json) (skip (text ++ rest)) rest) → ∀ rest,
      Reads (.elements (jsonElements (w :: vs))) (text ++ style.dumpsElements vs ++ rest) rest
  | w, [], _, hw, rest => by
    rw [List.append_assoc]
    exact .lastElement (hw _) rfl
  | w, v :: vs, _, hw, rest => by
    have hv : ∀ rest, Reads (.value v.json) (skip (style.blanks ++ style.dumps v ++ rest)) rest :=
      fun rest => by
        rw [List.append_assoc]
        exact style.reads_skip (reads_dumps v rest)
    rw [List.append_assoc, dumpsElements]
    exact .element (hw _) (skip_cons_of_not rfl _) (reads_elements v vs _ hv rest)

theorem reads_members : ∀ (key : List Char) (w : Value) (ms : List (List Char × Value))
    (text : List Char), (∀ rest, Reads (.member (codePoints key) w.json) (text ++ rest) rest) →
      ∀ rest, Reads (.members (jsonMembers ((key, w) :: ms)))
        (text ++ style.dumpsMembers ms ++ rest) rest
  | key, w, [], _, hw, rest => by
    rw [List.append_assoc]
    exact .lastMember (hw _) rfl
  | key, w, (key', v) :: ms, _, hw, rest => by
    have hm : ∀ rest, Reads (.member (codePoints key') v.json)
        (style.blanks ++ (style.quote key' ++ ':' :: (style.blanks ++ style.dumps v)) ++ rest)
        rest :=
      fun rest => style.reads_member (by simp [skip_blanks]) (reads_dumps v rest)
    rw [List.append_assoc, dumpsMembers]
    exact .moreMembers (hw _) (skip_cons_of_not rfl _) (reads_members key' v ms _ hm rest)

end

/-- A writer and the parser: the data come back, if they are not nested too deep. -/
theorem loads_dumps (constants : List (List Char)) {limit : ℕ} {v : Value}
    (hdepth : v.json.depth ≤ limit) :
    loads constants limit (style.dumps v) = some v.json := by
  have hreads := style.reads_dumps v []
  rw [List.append_nil] at hreads
  have hdecodes : Decodes (style.dumps v) v.json :=
    ⟨[], by rwa [skip_eq_of_reads hreads], rfl⟩
  exact hdecodes.loads constants hdepth

/-- A writer and a decoder that convert integers: what one writes the other reads. -/
theorem loadsInts_of_dumpsInts (constants : List (List Char)) {digits limit : ℕ} {v : Value}
    {text : List Char} (hdepth : v.json.depth ≤ limit) (h : style.dumpsInts digits v = some text) :
    loadsInts digits constants limit text = some v.json := by
  unfold dumpsInts at h
  split_ifs at h with hdigits
  cases h
  exact loadsInts_of_loads (style.loads_dumps constants hdepth) hdigits

end Style

end JsonText
