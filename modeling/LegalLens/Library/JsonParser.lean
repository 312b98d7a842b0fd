import LegalLens.Library.JsonText

/-!
# A parser for JSON texts

The parser takes the characters from the front of a text and leaves the rest. A number is taken
as long as possible, which is the reading of the grammar in front of every character that can
follow a value. Arrays and objects may be nested up to a limit. Below the limit the parser
accepts exactly the texts of the grammar, so that a text has at most one reading.
-/

namespace JsonText

/-! ## Tokens -/

/-- The text behind an opening quote, as the units of the string and what follows it. -/
def parseQuoted : List Char → Option (List ℕ × List Char)
  | '"' :: text => some ([], text)
  | '\\' :: 'u' :: a :: b :: c :: d :: text =>
    match unitValue a b c d with
    | some n => (parseQuoted text).map fun r => (n :: r.1, r.2)
    | none => none
  | '\\' :: c :: text =>
    match escapeValue c with
    | some n => (parseQuoted text).map fun r => (n :: r.1, r.2)
    | none => none
  | c :: text => if Plain c then (parseQuoted text).map fun r => (c.toNat :: r.1, r.2) else none
  | [] => none

theorem quoted_of_parseQuoted {text rest : List Char} {units : List ℕ}
    (h : parseQuoted text = some (units, rest)) : Quoted text units rest := by
  fun_induction parseQuoted text generalizing units with
  | case1 text =>
    cases h
    exact .close
  | case2 a b c d text n hn ih =>
    obtain ⟨⟨us, more⟩, hmore, heq⟩ := Option.map_eq_some_iff.mp h
    cases heq
    exact .unicode hn (ih hmore)
  | case4 c text _ n hn ih =>
    obtain ⟨⟨us, more⟩, hmore, heq⟩ := Option.map_eq_some_iff.mp h
    cases heq
    exact .escape hn (ih hmore)
  | case6 c text _ _ _ hc ih =>
    obtain ⟨⟨us, more⟩, hmore, heq⟩ := Option.map_eq_some_iff.mp h
    cases heq
    exact .literal hc (ih hmore)
  | case3 | case5 | case7 | case8 => cases h

theorem Quoted.parseQuoted {text rest : List Char} {units : List ℕ} (h : Quoted text units rest) :
    parseQuoted text = some (units, rest) := by
  induction h with
  | close => rfl
  | @literal c text units rest hc _ ih =>
    rw [JsonText.parseQuoted, if_pos hc, ih]
    · rfl
    · exact hc.1
    · exact fun _ _ _ _ _ h _ => hc.2.1 h
    · exact fun _ _ h _ => hc.2.1 h
  | @escape c n text units rest hc _ ih =>
    rw [JsonText.parseQuoted, hc]
    · simp only [ih, Option.map_some]
    · rintro a b d e more rfl -
      cases hc
  | unicode hn _ ih => simp only [JsonText.parseQuoted, hn, ih, Option.map_some]

/-- The text does not go on with a character of the class. -/
def Stops (p : Char → Bool) (text : List Char) : Prop := ∀ c ∈ text.head?, p c = false

/-- As many digits as there are, and at least one. -/
def digits (text : List Char) : Option (List Char × List Char) :=
  if (text.takeWhile Char.isDigit).isEmpty then none
  else some (text.takeWhile Char.isDigit, text.dropWhile Char.isDigit)

theorem digits_spec {text ds rest : List Char} (h : digits text = some (ds, rest)) :
    text = ds ++ rest ∧ Digits ds := by
  unfold digits at h
  split_ifs at h with hempty
  cases h
  refine ⟨List.takeWhile_append_dropWhile.symm, fun hnil => ?_, fun d hd => ?_⟩
  · exact hempty (List.isEmpty_iff.mpr hnil)
  · exact List.all_eq_true.mp List.all_takeWhile d hd

theorem takeWhile_dropWhile_of_stops {p : Char → Bool} {ds rest : List Char}
    (hds : ∀ d ∈ ds, p d = true) (hrest : Stops p rest) :
    (ds ++ rest).takeWhile p = ds ∧ (ds ++ rest).dropWhile p = rest := by
  rw [List.takeWhile_append_of_pos hds, List.dropWhile_append_of_pos hds]
  cases rest with
  | nil => simp
  | cons c rest =>
    have hc : p c = false := hrest c rfl
    simp [hc]

theorem digits_append {ds rest : List Char} (hds : Digits ds) (hrest : Stops Char.isDigit rest) :
    digits (ds ++ rest) = some (ds, rest) := by
  obtain ⟨htake, hdrop⟩ := takeWhile_dropWhile_of_stops hds.2 hrest
  rw [digits, htake, hdrop, if_neg fun h => hds.1 (List.isEmpty_iff.mp h)]

def takeSign (signs : List Char) : List Char → List Char × List Char
  | [] => ([], [])
  | c :: text => if c ∈ signs then ([c], text) else ([], c :: text)

theorem takeSign_spec (signs text : List Char) :
    text = (takeSign signs text).1 ++ (takeSign signs text).2 ∧
      ((takeSign signs text).1 = [] ∨ ∃ c ∈ signs, (takeSign signs text).1 = [c]) := by
  fun_cases takeSign signs text with
  | case1 => exact ⟨rfl, Or.inl rfl⟩
  | case2 c text hc => exact ⟨rfl, Or.inr ⟨c, hc, rfl⟩⟩
  | case3 c text hc => exact ⟨rfl, Or.inl rfl⟩

theorem takeSign_append {signs sign text : List Char}
    (hsign : sign = [] ∨ ∃ c ∈ signs, sign = [c]) (htext : ∀ c ∈ text.head?, c ∉ signs) :
    takeSign signs (sign ++ text) = (sign, text) := by
  rcases hsign with rfl | ⟨c, hc, rfl⟩
  · cases text with
    | nil => rfl
    | cons c text => exact if_neg (htext c rfl)
  · exact if_pos hc

def integer : List Char → Option (List Char × List Char)
  | '0' :: text => some (['0'], text)
  | text => digits text

theorem integer_spec {text int rest : List Char} (h : integer text = some (int, rest)) :
    text = int ++ rest ∧ IsInteger int := by
  fun_cases integer text with
  | case1 text =>
    cases h
    exact ⟨rfl, ⟨by simp, by simp [Char.isDigit]⟩, fun _ => rfl⟩
  | case2 text hzero =>
    simp only [integer] at h
    obtain ⟨rfl, hint⟩ := digits_spec h
    refine ⟨rfl, hint, fun hhead => ?_⟩
    obtain ⟨ds, rfl⟩ : ∃ ds, int = '0' :: ds := by
      cases int with
      | nil => cases hhead
      | cons d ds =>
        cases hhead
        exact ⟨ds, rfl⟩
    exact absurd rfl (hzero (ds ++ rest))

theorem integer_append {int rest : List Char} (hint : IsInteger int)
    (hrest : Stops Char.isDigit rest) : integer (int ++ rest) = some (int, rest) := by
  by_cases hzero : int.head? = some '0'
  · rw [hint.2 hzero]
    rfl
  · rw [integer]
    · exact digits_append hint.1 hrest
    · intro text h
      cases int with
      | nil => exact hint.1.1 rfl
      | cons d ds =>
        cases h
        exact hzero rfl

/-- A point and digits, if they are there. -/
def fraction (text : List Char) : List Char × List Char :=
  match text with
  | '.' :: more =>
    match digits more with
    | some (ds, rest) => ('.' :: ds, rest)
    | none => ([], text)
  | _ => ([], text)

def IsFraction (fraction : List Char) : Prop :=
  fraction = [] ∨ ∃ ds, fraction = '.' :: ds ∧ Digits ds

theorem fraction_spec (text : List Char) :
    text = (fraction text).1 ++ (fraction text).2 ∧ IsFraction (fraction text).1 := by
  fun_cases fraction text with
  | case1 more ds rest hds =>
    obtain ⟨rfl, hdigits⟩ := digits_spec hds
    exact ⟨rfl, Or.inr ⟨ds, rfl, hdigits⟩⟩
  | case2 | case3 => exact ⟨rfl, Or.inl rfl⟩

theorem fraction_append {part rest : List Char} (hpart : IsFraction part)
    (hdigit : Stops Char.isDigit rest) (hpoint : rest.head? ≠ some '.') :
    fraction (part ++ rest) = (part, rest) := by
  rcases hpart with rfl | ⟨ds, rfl, hds⟩
  · rw [List.nil_append, fraction]
    rintro more rfl
    exact hpoint rfl
  · simp only [List.cons_append, fraction, digits_append hds hdigit]

def exponent (text : List Char) : List Char × List Char :=
  match text with
  | e :: more =>
    if e = 'e' ∨ e = 'E' then
      match digits (takeSign ['+', '-'] more).2 with
      | some (ds, rest) => (e :: (takeSign ['+', '-'] more).1 ++ ds, rest)
      | none => ([], text)
    else ([], text)
  | [] => ([], [])

def IsExponent (exponent : List Char) : Prop :=
  exponent = [] ∨ ∃ e sign ds, exponent = e :: sign ++ ds ∧ (e = 'e' ∨ e = 'E') ∧
    (sign = [] ∨ sign = ['+'] ∨ sign = ['-']) ∧ Digits ds

theorem sign_iff {sign : List Char} :
    (sign = [] ∨ ∃ c ∈ ['+', '-'], sign = [c]) ↔ sign = [] ∨ sign = ['+'] ∨ sign = ['-'] := by
  simp

theorem exponent_spec (text : List Char) :
    text = (exponent text).1 ++ (exponent text).2 ∧ IsExponent (exponent text).1 := by
  fun_cases exponent text with
  | case1 e more he ds rest hds =>
    obtain ⟨hmore, hdigits⟩ := digits_spec hds
    obtain ⟨htext, hsign⟩ := takeSign_spec ['+', '-'] more
    refine ⟨?_, Or.inr ⟨e, _, ds, rfl, he, sign_iff.mp hsign, hdigits⟩⟩
    rw [List.cons_append, List.cons_append, List.append_assoc, ← hmore, ← htext]
  | case2 | case3 | case4 => exact ⟨rfl, Or.inl rfl⟩

theorem exponent_append {part rest : List Char} (hpart : IsExponent part)
    (hdigit : Stops Char.isDigit rest) (he : ∀ c ∈ rest.head?, ¬(c = 'e' ∨ c = 'E')) :
    exponent (part ++ rest) = (part, rest) := by
  rcases hpart with rfl | ⟨e, sign, ds, rfl, he', hsign, hds⟩
  · cases rest with
    | nil => rfl
    | cons c rest => exact if_neg (he c rfl)
  · have hhead : ∀ c ∈ (ds ++ rest).head?, c ∉ ['+', '-'] := by
      obtain ⟨d, more, rfl⟩ := List.exists_cons_of_ne_nil hds.1
      rintro c ⟨⟩ hc
      have hd := hds.2 d List.mem_cons_self
      simp only [List.mem_cons, List.not_mem_nil, or_false] at hc
      rcases hc with rfl | rfl <;> cases hd
    simp only [List.cons_append, List.append_assoc, exponent, if_pos he',
      takeSign_append (sign_iff.mpr hsign) hhead, digits_append hds hdigit]

def number (text : List Char) : Option (List Char × List Char) :=
  let sign := takeSign ['-'] text
  match integer sign.2 with
  | some int =>
    let fraction := fraction int.2
    let exponent := exponent fraction.2
    some (sign.1 ++ int.1 ++ fraction.1 ++ exponent.1, exponent.2)
  | none => none

/-- A number may end in front of the text: it goes on with none of a number's characters. -/
def Delimited (text : List Char) : Prop :=
  Stops (fun c => c.isDigit || c = '.' || c = 'e' || c = 'E') text

theorem number_spec {text token rest : List Char} (h : number text = some (token, rest)) :
    text = token ++ rest ∧ IsNumber token := by
  simp only [number] at h
  split at h
  next int hint =>
    cases h
    obtain ⟨htext, hsign⟩ := takeSign_spec ['-'] text
    obtain ⟨hbehind, hinteger⟩ := integer_spec hint
    obtain ⟨hmore, hfraction⟩ := fraction_spec int.2
    obtain ⟨hrest, hexponent⟩ := exponent_spec (fraction int.2).2
    constructor
    · rw [List.append_assoc, List.append_assoc, List.append_assoc, ← hrest, ← hmore, ← hbehind,
        ← htext]
    · exact ⟨_, _, _, _, rfl, by simpa using hsign, hinteger, hfraction, hexponent⟩
  next => cases h

theorem number_append {token rest : List Char} (htoken : IsNumber token)
    (hrest : Delimited rest) : number (token ++ rest) = some (token, rest) := by
  obtain ⟨sign, int, fraction, exponent, rfl, hsign, hint, hfraction, hexponent⟩ := htoken.parts
  have hdigit : Stops Char.isDigit rest := fun c hc => by
    have hstop := hrest c hc
    simp only [Bool.or_eq_false_iff] at hstop
    exact hstop.1.1.1
  have hletter : ∀ c ∈ rest.head?, ¬(c = 'e' ∨ c = 'E') := fun c hc => by
    have hstop := hrest c hc
    simp only [Bool.or_eq_false_iff, decide_eq_false_iff_not] at hstop
    exact not_or.mpr ⟨hstop.1.2, hstop.2⟩
  have hpoint : rest.head? ≠ some '.' := fun h => by
    have hstop := hrest '.' h
    cases hstop
  -- What follows the fraction begins with the letter of the exponent or is the rest.
  have hbehind : Stops Char.isDigit (exponent ++ rest) ∧ (exponent ++ rest).head? ≠ some '.' := by
    rcases hexponent with rfl | ⟨e, sign', ds, rfl, rfl | rfl, -, -⟩
    · exact ⟨hdigit, hpoint⟩
    · exact ⟨by rintro c ⟨⟩; rfl, by simp⟩
    · exact ⟨by rintro c ⟨⟩; rfl, by simp⟩
  have hmore : Stops Char.isDigit (fraction ++ (exponent ++ rest)) := by
    rcases hfraction with rfl | ⟨ds, rfl, -⟩
    · exact hbehind.1
    · rintro c ⟨⟩
      rfl
  have hhead : ∀ c ∈ (int ++ (fraction ++ (exponent ++ rest))).head?, c ∉ ['-'] := by
    obtain ⟨d, ds, rfl⟩ := List.exists_cons_of_ne_nil hint.1.1
    rintro c ⟨⟩ hc
    have hd := hint.1.2 d List.mem_cons_self
    rw [List.mem_singleton.mp hc] at hd
    cases hd
  have hsign' : sign = [] ∨ ∃ c ∈ ['-'], sign = [c] := by simpa using hsign
  simp only [number, List.append_assoc, takeSign_append hsign' hhead, integer_append hint hmore,
    fraction_append hfraction hbehind.1 hbehind.2, exponent_append hexponent hdigit hletter]

/-! ## Values -/

mutual

/-- How deep arrays and objects are nested. -/
def Json.depth : Json → ℕ
  | .array vs => depthElements vs + 1
  | .object ms => depthMembers ms + 1
  | _ => 0

def depthElements : List Json → ℕ
  | [] => 0
  | v :: vs => max v.depth (depthElements vs)

def depthMembers : List (List ℕ × Json) → ℕ
  | [] => 0
  | (_, v) :: ms => max v.depth (depthMembers ms)

end

/-- The items up to a closing character, with commas between them. -/
def items {α : Type*} (item : List Char → Option (α × List Char)) (close : Char) :
    ℕ → List Char → Option (List α × List Char)
  | 0, _ => none
  | n + 1, text =>
    match item text with
    | none => none
    | some (a, behind) =>
      match skip behind with
      | [] => none
      | c :: more =>
        if c = close then some ([a], more)
        else if c = ',' then (items item close n more).map fun r => (a :: r.1, r.2)
        else none

/-- The words that are values. A decoder may know more of them, such as `NaN`; they count as
numbers. -/
def word (constants : List (List Char)) (text : List Char) : Option (Json × List Char) :=
  ([("null".toList, Json.null), ("true".toList, .bool true), ("false".toList, .bool false)] ++
    constants.map fun c => (c, Json.number c)).findSome? fun w =>
      (text.dropPrefix? w.1).map fun rest => (w.2, rest)

/-- The words for numbers that JSON has no literals for. -/
def nonFinite : List (List Char) := ["NaN".toList, "Infinity".toList, "-Infinity".toList]

/-- The first character tells what kind of a value it is. -/
def valueWith (constants : List (List Char))
    (array object : List Char → Option (Json × List Char)) :
    List Char → Option (Json × List Char)
  | '"' :: text => (parseQuoted text).map fun r => (.string (combine r.1), r.2)
  | '[' :: text => array text
  | '\x7b' :: text => object text
  | text =>
    match number text with
    | some (token, rest) => some (.number token, rest)
    | none => word constants text

section Nested

variable (value : List Char → Option (Json × List Char))

def element (text : List Char) : Option (Json × List Char) := value (skip text)

def member (text : List Char) : Option ((List ℕ × Json) × List Char) :=
  match skip text with
  | '"' :: text =>
    match parseQuoted text with
    | none => none
    | some (units, behind) =>
      match skip behind with
      | ':' :: text => (value (skip text)).map fun r => ((combine units, r.1), r.2)
      | _ => none
  | _ => none

def array (text : List Char) : Option (Json × List Char) :=
  match skip text with
  | ']' :: rest => some (.array [], rest)
  | _ => (items (element value) ']' text.length text).map fun r => (.array r.1, r.2)

def object (text : List Char) : Option (Json × List Char) :=
  match skip text with
  | '\x7d' :: rest => some (.object [], rest)
  | _ => (items (member value) '\x7d' text.length text).map fun r => (.object r.1, r.2)

end Nested

def parseValue (constants : List (List Char)) : ℕ → List Char → Option (Json × List Char)
  | 0 => valueWith constants (fun _ => none) fun _ => none
  | limit + 1 =>
    valueWith constants (array (parseValue constants limit)) (object (parseValue constants limit))

/-- The value of the whole text, nested at most as deep as the limit. Integers are not converted:
see `loadsInts`. -/
def loads (constants : List (List Char)) (limit : ℕ) (text : List Char) : Option Json :=
  match parseValue constants limit (skip text) with
  | some (v, rest) => if (skip rest).isEmpty then some v else none
  | none => none

example : loads [] 1 ['[', '-', '1', '.', '5', ' ', ',', '"', 'a', '"', ']'] =
    some (.array [.number ['-', '1', '.', '5'], .string [97]]) := by rfl

/-- The digits of an integer literal; other literals are floats. -/
def intDigits (token : List Char) : ℕ :=
  if token.all fun c => c.isDigit || c = '-' then (token.filter Char.isDigit).length else 0

mutual

/-- No integer has more digits. -/
def Json.within (digits : ℕ) : Json → Bool
  | .number token => intDigits token ≤ digits
  | .array vs => withinElements digits vs
  | .object ms => withinMembers digits ms
  | .null | .bool _ | .string _ => true

def withinElements (digits : ℕ) : List Json → Bool
  | [] => true
  | v :: vs => v.within digits && withinElements digits vs

def withinMembers (digits : ℕ) : List (List ℕ × Json) → Bool
  | [] => true
  | (_, v) :: ms => v.within digits && withinMembers digits ms

end

/-- A decoder that converts the integers of the text, and raises for one with too many digits. -/
def loadsInts (digits : ℕ) (constants : List (List Char)) (limit : ℕ) (text : List Char) :
    Option Json :=
  (loads constants limit text).filter fun v => v.within digits

theorem loadsInts_of_loads {digits limit : ℕ} {constants : List (List Char)} {text : List Char}
    {v : Json} (h : loads constants limit text = some v) (hv : v.within digits = true) :
    loadsInts digits constants limit text = some v := by
  rw [loadsInts, h, Option.filter_some, hv]
  rfl

example : loadsInts 2 [] 1 ['[', '1', '2', '3', ']'] = none ∧
    (loadsInts 2 [] 1 ['[', '1', '2', '.', '5', ']']).isSome = true := by decide

/-! ## What is accepted is well formed -/

theorem items_spec {α : Type*} {item : List Char → Option (α × List Char)} {close : Char}
    {P : α → List Char → List Char → Prop} {Q : List α → List Char → List Char → Prop}
    (hitem : ∀ {text a rest}, item text = some (a, rest) → P a text rest)
    (hlast : ∀ {a text behind rest}, P a text behind → skip behind = close :: rest →
      Q [a] text rest)
    (hmore : ∀ {a as text behind more rest}, P a text behind → skip behind = ',' :: more →
      Q as more rest → Q (a :: as) text rest) {n : ℕ} {text rest : List Char}
    {as : List α} (h : items item close n text = some (as, rest)) : Q as text rest := by
  induction n generalizing text as with
  | zero => cases h
  | succ n ih =>
    rw [items] at h
    split at h
    next => cases h
    next a behind ha =>
      split at h
      next => cases h
      next c more hskip =>
        split_ifs at h with hclose hcomma
        · cases h
          subst hclose
          exact hlast (hitem ha) hskip
        · obtain ⟨⟨others, end'⟩, hothers, heq⟩ := Option.map_eq_some_iff.mp h
          cases heq
          subst hcomma
          exact hmore (hitem ha) hskip (ih hothers)

theorem reads_of_word {text rest : List Char} {v : Json} (h : word [] text = some (v, rest)) :
    Reads (.value v) text rest ∧ v.depth = 0 := by
  obtain ⟨w, hw, hdrop⟩ := List.exists_of_findSome?_eq_some h
  obtain ⟨rest, hrest, heq⟩ := Option.map_eq_some_iff.mp hdrop
  obtain ⟨word, htext, hword⟩ := List.dropPrefix?_eq_some_iff.mp hrest
  cases heq
  rw [eq_of_beq hword] at htext
  simp only [List.map_nil, List.append_nil, List.mem_cons, List.not_mem_nil, or_false] at hw
  rcases hw with rfl | rfl | rfl
  · exact ⟨.null htext, rfl⟩
  · exact ⟨.true htext, rfl⟩
  · exact ⟨.false htext, rfl⟩

/-- What the parser of a value promises. -/
def Sound (value : List Char → Option (Json × List Char)) (limit : ℕ) : Prop :=
  ∀ {text v rest}, value text = some (v, rest) → Reads (.value v) text rest ∧ v.depth ≤ limit

section Sound

variable {value : List Char → Option (Json × List Char)} {limit : ℕ} {text rest : List Char}

theorem Sound.elements (hvalue : Sound value limit) {n : ℕ} {vs : List Json}
    (h : items (element value) ']' n text = some (vs, rest)) :
    Reads (.elements vs) text rest ∧ depthElements vs ≤ limit := by
  refine items_spec (P := fun v text rest => Reads (.value v) (skip text) rest ∧ v.depth ≤ limit)
    (Q := fun vs text rest => Reads (.elements vs) text rest ∧ depthElements vs ≤ limit)
    hvalue ?_ ?_ h
  · rintro v text behind rest ⟨hv, hdepth⟩ hclose
    exact ⟨.lastElement hv hclose, by simpa [depthElements] using hdepth⟩
  · rintro v vs text behind more rest ⟨hv, hdepth⟩ hcomma ⟨hvs, hdepths⟩
    exact ⟨.element hv hcomma hvs, max_le hdepth hdepths⟩

theorem Sound.member (hvalue : Sound value limit) {m : List ℕ × Json}
    (h : JsonText.member value text = some (m, rest)) :
    Reads (.member m.1 m.2) text rest ∧ m.2.depth ≤ limit := by
  unfold JsonText.member at h
  split at h
  next key hquote =>
    split at h
    next => cases h
    next units behind hkey =>
      split at h
      next text' hcolon =>
        obtain ⟨⟨v, more⟩, hv, heq⟩ := Option.map_eq_some_iff.mp h
        cases heq
        obtain ⟨hreads, hdepth⟩ := hvalue hv
        exact ⟨.member hquote (quoted_of_parseQuoted hkey) hcolon hreads, hdepth⟩
      next => cases h
  next => cases h

theorem Sound.members (hvalue : Sound value limit) {n : ℕ} {ms : List (List ℕ × Json)}
    (h : items (JsonText.member value) '\x7d' n text = some (ms, rest)) :
    Reads (.members ms) text rest ∧ depthMembers ms ≤ limit := by
  refine items_spec
    (P := fun m text rest => Reads (.member m.1 m.2) text rest ∧ m.2.depth ≤ limit)
    (Q := fun ms text rest => Reads (.members ms) text rest ∧ depthMembers ms ≤ limit)
    hvalue.member ?_ ?_ h
  · rintro ⟨key, v⟩ text behind rest ⟨hm, hdepth⟩ hclose
    exact ⟨.lastMember hm hclose, by simpa [depthMembers] using hdepth⟩
  · rintro ⟨key, v⟩ ms text behind more rest ⟨hm, hdepth⟩ hcomma ⟨hms, hdepths⟩
    exact ⟨.moreMembers hm hcomma hms, max_le hdepth hdepths⟩

theorem Sound.array (hvalue : Sound value limit) {v : Json}
    (h : JsonText.array value text = some (v, rest)) :
    Reads (.value v) ('[' :: text) rest ∧ v.depth ≤ limit + 1 := by
  unfold JsonText.array at h
  split at h
  next rest' hclose =>
    cases h
    exact ⟨.emptyArray hclose, Nat.le_add_left 1 limit⟩
  next =>
    obtain ⟨⟨vs, rest'⟩, hvs, heq⟩ := Option.map_eq_some_iff.mp h
    cases heq
    obtain ⟨hreads, hdepth⟩ := hvalue.elements hvs
    exact ⟨.array hreads, Nat.succ_le_succ hdepth⟩

theorem Sound.object (hvalue : Sound value limit) {v : Json}
    (h : JsonText.object value text = some (v, rest)) :
    Reads (.value v) ('\x7b' :: text) rest ∧ v.depth ≤ limit + 1 := by
  unfold JsonText.object at h
  split at h
  next rest' hclose =>
    cases h
    exact ⟨.emptyObject hclose, Nat.le_add_left 1 limit⟩
  next =>
    obtain ⟨⟨ms, rest'⟩, hms, heq⟩ := Option.map_eq_some_iff.mp h
    cases heq
    obtain ⟨hreads, hdepth⟩ := hvalue.members hms
    exact ⟨.object hreads, Nat.succ_le_succ hdepth⟩

theorem sound_valueWith {array object : List Char → Option (Json × List Char)}
    (harray : ∀ {text v rest}, array text = some (v, rest) →
      Reads (.value v) ('[' :: text) rest ∧ v.depth ≤ limit)
    (hobject : ∀ {text v rest}, object text = some (v, rest) →
      Reads (.value v) ('\x7b' :: text) rest ∧ v.depth ≤ limit) :
    Sound (valueWith [] array object) limit := by
  intro text v rest h
  unfold valueWith at h
  split at h
  next text =>
    obtain ⟨⟨units, rest'⟩, hread, heq⟩ := Option.map_eq_some_iff.mp h
    cases heq
    exact ⟨.string (quoted_of_parseQuoted hread), Nat.zero_le limit⟩
  next => exact harray h
  next => exact hobject h
  next =>
    split at h
    next token rest' hnumber =>
      cases h
      obtain ⟨htext, htoken⟩ := number_spec hnumber
      exact ⟨.number htext htoken, Nat.zero_le limit⟩
    next =>
      obtain ⟨hreads, hdepth⟩ := reads_of_word h
      exact ⟨hreads, hdepth.le.trans (Nat.zero_le limit)⟩

end Sound

theorem sound_parseValue (limit : ℕ) : Sound (parseValue [] limit) limit := by
  induction limit with
  | zero => exact sound_valueWith (fun h => by cases h) fun h => by cases h
  | succ limit ih => exact sound_valueWith ih.array ih.object

/-! ## What is well formed is accepted -/

theorem delimited_of_isBlank {c : Char} (h : isBlank c = true) (text : List Char) :
    Delimited (c :: text) := by
  rintro d ⟨⟩
  simp only [isBlank, Bool.or_eq_true, decide_eq_true_eq] at h
  rcases h with ((rfl | rfl) | rfl) | rfl <;> rfl

theorem delimited_of_skip {text rest : List Char} {c : Char} (hskip : skip text = c :: rest)
    (hc : c = ',' ∨ c = ']' ∨ c = '\x7d') : Delimited text := by
  cases text with
  | nil =>
    rintro d ⟨⟩
  | cons d text =>
    cases hblank : isBlank d with
    | true => exact delimited_of_isBlank hblank text
    | false =>
      rw [skip_cons_of_not hblank] at hskip
      cases hskip
      rintro c ⟨⟩
      rcases hc with rfl | rfl | rfl <;> rfl

theorem delimited_of_skip_nil {text : List Char} (h : skip text = []) : Delimited text := by
  cases text with
  | nil =>
    rintro d ⟨⟩
  | cons d text =>
    cases hblank : isBlank d with
    | true => exact delimited_of_isBlank hblank text
    | false =>
      rw [skip_cons_of_not hblank] at h
      cases h

theorem Reads.head_ne {v : Json} {text rest more : List Char} (h : Reads (.value v) text rest) :
    text ≠ ']' :: more := by
  rintro rfl
  generalize htext : ']' :: more = text at h
  cases h with
  | null h | true h | false h =>
    rw [← htext] at h
    cases h
  | number h htoken =>
    obtain ⟨c, token, rfl, hc⟩ := htoken.head
    rw [← htext] at h
    obtain ⟨rfl, -⟩ := List.cons.inj h
    rcases hc with hc | hc <;> cases hc
  | string | emptyArray | array | emptyObject | object => cases htext

theorem Reads.skip_elements_ne {vs : List Json} {text rest more : List Char}
    (h : Reads (.elements vs) text rest) : skip text ≠ ']' :: more := by
  cases h with
  | lastElement hv | element hv => exact hv.head_ne

theorem Reads.skip_members_ne {ms : List (List ℕ × Json)} {text rest more : List Char}
    (h : Reads (.members ms) text rest) : skip text ≠ '\x7d' :: more := by
  cases h with
  | lastMember hm | moreMembers hm =>
    cases hm with
    | member hquote =>
      rw [hquote]
      intro h
      cases h

section Items

variable {α : Type*} {item : List Char → Option (α × List Char)} {close : Char}
  {text behind more rest : List Char} {a : α} {as : List α} {n : ℕ}

theorem items_last (ha : item text = some (a, behind)) (hclose : skip behind = close :: rest) :
    items item close (n + 1) text = some ([a], rest) := by
  simp only [items, ha, hclose, if_true]

theorem items_more (hne : close ≠ ',') (ha : item text = some (a, behind))
    (hcomma : skip behind = ',' :: more) (has : items item close n more = some (as, rest)) :
    items item close (n + 1) text = some (a :: as, rest) := by
  simp only [items, ha, hcomma, if_neg hne.symm, if_true, has, Option.map_some]

end Items

section Nested

variable {value : List Char → Option (Json × List Char)} {text rest : List Char}

theorem array_of_items {vs : List Json} (hne : ∀ more, skip text ≠ ']' :: more)
    (h : items (element value) ']' text.length text = some (vs, rest)) :
    array value text = some (.array vs, rest) := by
  unfold array
  split
  next more hskip => exact absurd hskip (hne more)
  next =>
    rw [h]
    rfl

theorem object_of_items {ms : List (List ℕ × Json)} (hne : ∀ more, skip text ≠ '\x7d' :: more)
    (h : items (member value) '\x7d' text.length text = some (ms, rest)) :
    object value text = some (.object ms, rest) := by
  unfold object
  split
  next more hskip => exact absurd hskip (hne more)
  next =>
    rw [h]
    rfl

end Nested

section Words

variable (constants : List (List Char)) (array object : List Char → Option (Json × List Char))
  (rest : List Char)

theorem valueWith_null :
    valueWith constants array object ("null".toList ++ rest) = some (.null, rest) := by
  have hword : "null".toList = ['n', 'u', 'l', 'l'] := rfl
  simp [hword, valueWith, number, takeSign, integer, digits, word, List.dropPrefix?]

theorem valueWith_true :
    valueWith constants array object ("true".toList ++ rest) = some (.bool true, rest) := by
  have hword : "true".toList = ['t', 'r', 'u', 'e'] := rfl
  simp [hword, valueWith, number, takeSign, integer, digits, word, List.dropPrefix?]

theorem valueWith_false :
    valueWith constants array object ("false".toList ++ rest) = some (.bool false, rest) := by
  have hword : "false".toList = ['f', 'a', 'l', 's', 'e'] := rfl
  simp [hword, valueWith, number, takeSign, integer, digits, word, List.dropPrefix?]

theorem valueWith_number {token rest : List Char} (htoken : IsNumber token)
    (hrest : Delimited rest) :
    valueWith constants array object (token ++ rest) = some (.number token, rest) := by
  have hnumber := number_append htoken hrest
  obtain ⟨c, more, rfl, hc⟩ := htoken.head
  rw [List.cons_append, valueWith, ← List.cons_append, hnumber]
  all_goals
    rintro text h
    cases h
    rcases hc with hc | hc <;> cases hc

end Words

/-- What the parser does with a text that the grammar reads as the form. -/
def Form.Parses (constants : List (List Char)) : Form → List Char → List Char → Prop
  | .value v, text, rest => ∀ limit, v.depth ≤ limit → Delimited rest →
      parseValue constants limit text = some (v, rest)
  | .elements vs, text, rest => ∀ limit n, depthElements vs ≤ limit → text.length ≤ n →
      items (element (parseValue constants limit)) ']' n text = some (vs, rest)
  | .member key v, text, rest => ∀ limit, v.depth ≤ limit → Delimited rest →
      JsonText.member (parseValue constants limit) text = some ((key, v), rest)
  | .members ms, text, rest => ∀ limit n, depthMembers ms ≤ limit → text.length ≤ n →
      items (JsonText.member (parseValue constants limit)) '\x7d' n text = some (ms, rest)

theorem exists_valueWith (constants : List (List Char)) (limit : ℕ) :
    ∃ array object, parseValue constants limit = valueWith constants array object := by
  cases limit with
  | zero => exact ⟨_, _, rfl⟩
  | succ limit => exact ⟨_, _, rfl⟩

theorem parseValue_number {constants : List (List Char)} {limit : ℕ} {token rest : List Char}
    (htoken : IsNumber token) (hrest : Delimited rest) :
    parseValue constants limit (token ++ rest) = some (.number token, rest) := by
  obtain ⟨array, object, hparse⟩ := exists_valueWith constants limit
  rw [hparse, valueWith_number constants array object htoken hrest]

/-- The grammar is no wider than the parser. -/
theorem Reads.parses (constants : List (List Char)) {form : Form} {text rest : List Char}
    (h : Reads form text rest) : form.Parses constants text rest := by
  induction h with
  | null h =>
    intro limit _ _
    obtain ⟨array, object, hparse⟩ := exists_valueWith constants limit
    rw [hparse, h]
    exact valueWith_null ..
  | true h =>
    intro limit _ _
    obtain ⟨array, object, hparse⟩ := exists_valueWith constants limit
    rw [hparse, h]
    exact valueWith_true ..
  | false h =>
    intro limit _ _
    obtain ⟨array, object, hparse⟩ := exists_valueWith constants limit
    rw [hparse, h]
    exact valueWith_false ..
  | number h htoken =>
    intro limit _ hrest
    subst h
    exact parseValue_number htoken hrest
  | string h =>
    intro limit _ _
    obtain ⟨array, object, hparse⟩ := exists_valueWith constants limit
    rw [hparse, valueWith, h.parseQuoted]
    rfl
  | emptyArray h =>
    rintro (- | limit) hlimit -
    · cases hlimit
    · simp only [parseValue, valueWith, JsonText.array, h]
  | array h ih =>
    rintro (- | limit) hlimit -
    · cases hlimit
    · exact array_of_items (fun _ => h.skip_elements_ne)
        (ih limit _ (Nat.le_of_succ_le_succ hlimit) le_rfl)
  | emptyObject h =>
    rintro (- | limit) hlimit -
    · cases hlimit
    · simp only [parseValue, valueWith, JsonText.object, h]
  | object h ih =>
    rintro (- | limit) hlimit -
    · cases hlimit
    · exact object_of_items (fun _ => h.skip_members_ne)
        (ih limit _ (Nat.le_of_succ_le_succ hlimit) le_rfl)
  | @lastElement _ text _ _ hv hclose ih =>
    rintro limit (- | n) hlimit hn
    · have hlt := hv.length_lt
      have hle := length_skip_le text
      omega
    · exact items_last (ih limit ((le_max_left ..).trans hlimit)
        (delimited_of_skip hclose (by simp))) hclose
  | @element _ _ text _ more _ hv hcomma hvs ih ihs =>
    have hlt := hv.length_lt
    have hle := length_skip_le text
    have hmore := length_lt_of_skip_eq hcomma
    rintro limit (- | n) hlimit hn
    · omega
    · obtain ⟨hdepth, hdepths⟩ := max_le_iff.mp hlimit
      exact items_more (by decide) (ih limit hdepth (delimited_of_skip hcomma (by simp))) hcomma
        (ihs limit n hdepths (by omega))
  | member hquote hkey hcolon hv ih =>
    intro limit hlimit hrest
    simp only [JsonText.member, hquote, hkey.parseQuoted, hcolon, ih limit hlimit hrest,
      Option.map_some]
  | lastMember hm hclose ih =>
    rintro limit (- | n) hlimit hn
    · have hlt := hm.length_lt
      omega
    · exact items_last (ih limit ((le_max_left ..).trans hlimit)
        (delimited_of_skip hclose (by simp))) hclose
  | moreMembers hm hcomma hms ih ihs =>
    have hlt := hm.length_lt
    have hmore := length_lt_of_skip_eq hcomma
    rintro limit (- | n) hlimit hn
    · omega
    · obtain ⟨hdepth, hdepths⟩ := max_le_iff.mp hlimit
      exact items_more (by decide) (ih limit hdepth (delimited_of_skip hcomma (by simp))) hcomma
        (ihs limit n hdepths (by omega))

theorem Decodes.loads {text : List Char} {v : Json} (h : Decodes text v)
    (constants : List (List Char)) {limit : ℕ} (hdepth : v.depth ≤ limit) :
    loads constants limit text = some v := by
  obtain ⟨rest, hreads, hrest⟩ := h
  have hparse := hreads.parses constants limit hdepth (delimited_of_skip_nil hrest)
  simp only [JsonText.loads, hparse, hrest, List.isEmpty_nil, if_true]

/-- The parser accepts the texts of the grammar whose values are not nested too deep. -/
theorem loads_iff {limit : ℕ} {text : List Char} {v : Json} :
    loads [] limit text = some v ↔ Decodes text v ∧ v.depth ≤ limit := by
  constructor
  · intro h
    unfold loads at h
    split at h
    next w rest hparse =>
      split_ifs at h with hrest
      cases h
      obtain ⟨hreads, hdepth⟩ := sound_parseValue limit hparse
      exact ⟨⟨rest, hreads, List.isEmpty_iff.mp hrest⟩, hdepth⟩
    next => cases h
  · rintro ⟨h, hdepth⟩
    exact h.loads [] hdepth

/-- A text has at most one reading. -/
theorem Decodes.unique {text : List Char} {v w : Json} (hv : Decodes text v)
    (hw : Decodes text w) : v = w := by
  have hloads := hv.loads [] (le_max_left v.depth w.depth)
  rw [hw.loads [] (le_max_right v.depth w.depth)] at hloads
  exact (Option.some.inj hloads).symm

end JsonText
