import Mathlib.Tactic

/-!
# The grammar of JSON texts

`Reads` relates a form of the grammar to a text and to what is left of it. Strings are
decoded to code points, since an escape can denote a surrogate, which is no character. Every
character that is read yields at most one code point, and exactly one only if it stands for
itself. So a text put between quotes as it is decodes to itself exactly if it needs no escape.
-/

namespace JsonText

/-- A decoded text: numbers as they are written, members in the order of the text. -/
inductive Json where
  | null
  | bool (value : Bool)
  | number (token : List Char)
  | string (points : List ℕ)
  | array (elements : List Json)
  | object (members : List (List ℕ × Json))

/-! ## Strings -/

/-- A character that stands for itself in a string. -/
def Plain (c : Char) : Prop := c ≠ '"' ∧ c ≠ '\\' ∧ 0x20 ≤ c.toNat

instance : DecidablePred Plain := fun c =>
  inferInstanceAs (Decidable (c ≠ '"' ∧ c ≠ '\\' ∧ 0x20 ≤ c.toNat))

theorem plain_of_all {text : List Char} (h : text.all (fun c => decide (Plain c)) = true) :
    ∀ c ∈ text, Plain c :=
  fun c hc => of_decide_eq_true (List.all_eq_true.mp h c hc)

/-- The character after a backslash, other than `u`. -/
def escapeValue (c : Char) : Option ℕ :=
  match c with
  | '"' => some 0x22
  | '\\' => some 0x5c
  | '/' => some 0x2f
  | 'b' => some 0x8
  | 'f' => some 0xc
  | 'n' => some 0xa
  | 'r' => some 0xd
  | 't' => some 0x9
  | _ => none

def hexValue (c : Char) : Option ℕ :=
  if '0' ≤ c ∧ c ≤ '9' then some (c.toNat - 0x30)
  else if 'a' ≤ c ∧ c ≤ 'f' then some (c.toNat - 0x57)
  else if 'A' ≤ c ∧ c ≤ 'F' then some (c.toNat - 0x37)
  else none

/-- The four digits after `\u`. -/
def unitValue (a b c d : Char) : Option ℕ := do
  let a ← hexValue a
  let b ← hexValue b
  let c ← hexValue c
  let d ← hexValue d
  return ((a * 16 + b) * 16 + c) * 16 + d

/-- The text behind an opening quote, the units it denotes, and the text behind the closing
quote. -/
inductive Quoted : List Char → List ℕ → List Char → Prop where
  | close {rest : List Char} : Quoted ('"' :: rest) [] rest
  | literal {c : Char} {text : List Char} {units : List ℕ} {rest : List Char} (hc : Plain c)
      (h : Quoted text units rest) : Quoted (c :: text) (c.toNat :: units) rest
  | escape {c : Char} {n : ℕ} {text : List Char} {units : List ℕ} {rest : List Char}
      (hc : escapeValue c = some n) (h : Quoted text units rest) :
      Quoted ('\\' :: c :: text) (n :: units) rest
  | unicode {a b c d : Char} {n : ℕ} {text : List Char} {units : List ℕ} {rest : List Char}
      (hn : unitValue a b c d = some n) (h : Quoted text units rest) :
      Quoted ('\\' :: 'u' :: a :: b :: c :: d :: text) (n :: units) rest

def IsHigh (n : ℕ) : Prop := 0xd800 ≤ n ∧ n < 0xdc00

def IsLow (n : ℕ) : Prop := 0xdc00 ≤ n ∧ n < 0xe000

instance : DecidablePred IsHigh := fun n =>
  inferInstanceAs (Decidable (0xd800 ≤ n ∧ n < 0xdc00))

instance : DecidablePred IsLow := fun n =>
  inferInstanceAs (Decidable (0xdc00 ≤ n ∧ n < 0xe000))

/-- Units to code points: a high and a low surrogate are one code point. -/
def combine : List ℕ → List ℕ
  | hi :: lo :: units =>
    if IsHigh hi ∧ IsLow lo then
      (0x10000 + (hi - 0xd800) * 0x400 + (lo - 0xdc00)) :: combine units
    else hi :: combine (lo :: units)
  | units => units

def codePoints (text : List Char) : List ℕ := text.map Char.toNat

theorem length_combine_le (units : List ℕ) : (combine units).length ≤ units.length := by
  fun_induction combine units with
  | case1 hi lo units h ih =>
    simp only [List.length_cons]
    omega
  | case2 hi lo units h ih =>
    simp only [List.length_cons] at ih ⊢
    omega
  | case3 units => exact le_rfl

theorem combine_of_not_isHigh {units : List ℕ} (h : ∀ n ∈ units, ¬IsHigh n) :
    combine units = units := by
  fun_induction combine units with
  | case1 hi lo units hpair ih => exact absurd hpair.1 (h hi List.mem_cons_self)
  | case2 hi lo units hpair ih => rw [ih fun n hn => h n (List.mem_cons_of_mem hi hn)]
  | case3 units => rfl

theorem combine_codePoints (text : List Char) : combine (codePoints text) = codePoints text := by
  apply combine_of_not_isHigh
  intro n hn
  obtain ⟨c, -, rfl⟩ := List.mem_map.mp hn
  rintro ⟨hle, hlt⟩
  have hvalid : c.toNat < 0xd800 ∨ 0xdfff < c.toNat ∧ c.toNat < 0x110000 := c.valid
  omega

theorem codePoints_injective : Function.Injective codePoints :=
  List.map_injective_iff.mpr fun _ _ h => Char.toNat_inj.mp h

theorem quoted_plain {content : List Char} (h : ∀ c ∈ content, Plain c) (rest : List Char) :
    Quoted (content ++ '"' :: rest) (codePoints content) rest := by
  induction content with
  | nil => exact .close
  | cons c content ih =>
    obtain ⟨hc, hcontent⟩ := List.forall_mem_cons.mp h
    exact .literal hc (ih hcontent)

theorem Quoted.eq_of_plain {content rest rest' : List Char} {units : List ℕ}
    (h : ∀ c ∈ content, Plain c) (hread : Quoted (content ++ '"' :: rest) units rest') :
    units = codePoints content ∧ rest' = rest := by
  induction content generalizing units with
  | nil =>
    generalize htext : [] ++ '"' :: rest = text at hread
    cases hread with
    | close =>
      cases htext
      exact ⟨rfl, rfl⟩
    | literal hc _ =>
      cases htext
      exact absurd rfl hc.1
    | escape _ _ => cases htext
    | unicode _ _ => cases htext
  | cons c content ih =>
    obtain ⟨hc, hcontent⟩ := List.forall_mem_cons.mp h
    generalize htext : c :: content ++ '"' :: rest = text at hread
    cases hread with
    | close =>
      cases htext
      exact absurd rfl hc.1
    | literal _ hread =>
      cases htext
      obtain ⟨rfl, rfl⟩ := ih hcontent hread
      exact ⟨rfl, rfl⟩
    | escape _ _ => exact absurd (List.cons.inj htext).1 hc.2.1
    | unicode _ _ => exact absurd (List.cons.inj htext).1 hc.2.1

theorem Quoted.length_le {text rest : List Char} {units : List ℕ} (h : Quoted text units rest) :
    units.length + rest.length + 1 ≤ text.length := by
  induction h with
  | close => simp
  | literal _ _ ih =>
    simp only [List.length_cons]
    omega
  | escape _ _ ih =>
    simp only [List.length_cons]
    omega
  | unicode _ _ ih =>
    simp only [List.length_cons]
    omega

/-- If every character that is read yields a unit, all of them stand for themselves. -/
theorem Quoted.plain_of_length {text rest : List Char} {units : List ℕ}
    (h : Quoted text units rest) (hlength : text.length ≤ units.length + rest.length + 1) :
    ∃ content, text = content ++ '"' :: rest ∧ units = codePoints content ∧
      ∀ c ∈ content, Plain c := by
  induction h with
  | close => exact ⟨[], rfl, rfl, by simp⟩
  | @literal c text units rest hc _ ih =>
    simp only [List.length_cons] at hlength
    obtain ⟨content, rfl, rfl, hcontent⟩ := ih (by omega)
    exact ⟨c :: content, rfl, rfl, List.forall_mem_cons.mpr ⟨hc, hcontent⟩⟩
  | escape _ h _ =>
    have hle := h.length_le
    simp only [List.length_cons] at hlength
    omega
  | unicode _ h _ =>
    have hle := h.length_le
    simp only [List.length_cons] at hlength
    omega

/-! ## Values -/

def isBlank (c : Char) : Bool := c = ' ' || c = '\t' || c = '\n' || c = '\r'

/-- White space may stand around every token. -/
def skip (text : List Char) : List Char := text.dropWhile isBlank

@[simp] theorem skip_cons_of_not {c : Char} (h : isBlank c = false) (text : List Char) :
    skip (c :: text) = c :: text :=
  List.dropWhile_cons_of_neg (by simp [h])

@[simp] theorem skip_cons_of_blank {c : Char} (h : isBlank c = true) (text : List Char) :
    skip (c :: text) = skip text :=
  List.dropWhile_cons_of_pos h

theorem length_skip_le (text : List Char) : (skip text).length ≤ text.length :=
  (List.dropWhile_suffix isBlank).length_le

def Digits (ds : List Char) : Prop := ds ≠ [] ∧ ∀ d ∈ ds, d.isDigit = true

/-- An integer part: no zero stands in front of other digits. -/
def IsInteger (ds : List Char) : Prop := Digits ds ∧ (ds.head? = some '0' → ds = ['0'])

structure IsNumber (token : List Char) : Prop where
  parts : ∃ sign int fraction exponent, token = sign ++ int ++ fraction ++ exponent ∧
    (sign = [] ∨ sign = ['-']) ∧ IsInteger int ∧
    (fraction = [] ∨ ∃ ds, fraction = '.' :: ds ∧ Digits ds) ∧
    (exponent = [] ∨ ∃ e sign ds, exponent = e :: sign ++ ds ∧ (e = 'e' ∨ e = 'E') ∧
      (sign = [] ∨ sign = ['+'] ∨ sign = ['-']) ∧ Digits ds)

theorem IsNumber.head {token : List Char} (h : IsNumber token) :
    ∃ c rest, token = c :: rest ∧ (c = '-' ∨ c.isDigit = true) := by
  obtain ⟨sign, int, fraction, exponent, rfl, hsign, ⟨⟨hne, hdigits⟩, -⟩, -, -⟩ := h.parts
  rcases hsign with rfl | rfl
  · obtain ⟨d, ds, rfl⟩ := List.exists_cons_of_ne_nil hne
    exact ⟨d, ds ++ fraction ++ exponent, rfl, Or.inr (hdigits d List.mem_cons_self)⟩
  · exact ⟨'-', int ++ fraction ++ exponent, by simp, Or.inl rfl⟩

/-- What is read: a value, the rest of an array or an object, or one of its members. -/
inductive Form where
  | value (v : Json)
  | elements (vs : List Json)
  | member (key : List ℕ) (v : Json)
  | members (ms : List (List ℕ × Json))

/-- The text in front of a form, and the text behind it. -/
inductive Reads : Form → List Char → List Char → Prop where
  | null {text rest : List Char} (h : text = "null".toList ++ rest) : Reads (.value .null) text rest
  | true {text rest : List Char} (h : text = "true".toList ++ rest) :
      Reads (.value (.bool true)) text rest
  | false {text rest : List Char} (h : text = "false".toList ++ rest) :
      Reads (.value (.bool false)) text rest
  | number {text token rest : List Char} (h : text = token ++ rest) (htoken : IsNumber token) :
      Reads (.value (.number token)) text rest
  | string {text rest : List Char} {units : List ℕ} (h : Quoted text units rest) :
      Reads (.value (.string (combine units))) ('"' :: text) rest
  | emptyArray {text rest : List Char} (h : skip text = ']' :: rest) :
      Reads (.value (.array [])) ('[' :: text) rest
  | array {vs : List Json} {text rest : List Char} (h : Reads (.elements vs) text rest) :
      Reads (.value (.array vs)) ('[' :: text) rest
  | emptyObject {text rest : List Char} (h : skip text = '\x7d' :: rest) :
      Reads (.value (.object [])) ('\x7b' :: text) rest
  | object {ms : List (List ℕ × Json)} {text rest : List Char} (h : Reads (.members ms) text rest) :
      Reads (.value (.object ms)) ('\x7b' :: text) rest
  | lastElement {v : Json} {text behind rest : List Char}
      (hv : Reads (.value v) (skip text) behind) (hclose : skip behind = ']' :: rest) :
      Reads (.elements [v]) text rest
  | element {v : Json} {vs : List Json} {text behind more rest : List Char}
      (hv : Reads (.value v) (skip text) behind) (hcomma : skip behind = ',' :: more)
      (hvs : Reads (.elements vs) more rest) : Reads (.elements (v :: vs)) text rest
  | member {units : List ℕ} {v : Json} {text key behind value rest : List Char}
      (hquote : skip text = '"' :: key) (hkey : Quoted key units behind)
      (hcolon : skip behind = ':' :: value) (hv : Reads (.value v) (skip value) rest) :
      Reads (.member (combine units) v) text rest
  | lastMember {key : List ℕ} {v : Json} {text behind rest : List Char}
      (hm : Reads (.member key v) text behind) (hclose : skip behind = '\x7d' :: rest) :
      Reads (.members [(key, v)]) text rest
  | moreMembers {key : List ℕ} {v : Json} {ms : List (List ℕ × Json)}
      {text behind more rest : List Char} (hm : Reads (.member key v) text behind)
      (hcomma : skip behind = ',' :: more) (hms : Reads (.members ms) more rest) :
      Reads (.members ((key, v) :: ms)) text rest

/-- The whole text is one value. -/
def Decodes (text : List Char) (v : Json) : Prop :=
  ∃ rest, Reads (.value v) (skip text) rest ∧ skip rest = []

def IsObject (text : List Char) : Prop := ∃ ms, Decodes text (.object ms)

/-- The member with the key; of several, the last one counts. -/
def lookup (key : List ℕ) : List (List ℕ × Json) → Option Json
  | [] => none
  | m :: ms =>
    match lookup key ms with
    | some v => some v
    | none => if m.1 = key then some m.2 else none

theorem mem_of_lookup {key : List ℕ} {ms : List (List ℕ × Json)} {v : Json}
    (h : lookup key ms = some v) : (key, v) ∈ ms := by
  induction ms with
  | nil => cases h
  | cons m ms ih =>
    rw [lookup] at h
    split at h
    next w hw =>
      cases h
      exact List.mem_cons_of_mem m (ih hw)
    next =>
      split_ifs at h with hkey
      cases h
      subst hkey
      exact List.mem_cons_self

theorem length_lt_of_skip_eq {text rest : List Char} {c : Char} (h : skip text = c :: rest) :
    rest.length < text.length := by
  have hle := length_skip_le text
  rw [h, List.length_cons] at hle
  exact hle

theorem Reads.length_lt {form : Form} {text rest : List Char} (h : Reads form text rest) :
    rest.length < text.length := by
  induction h with
  | null h | true h | false h =>
    have hlength := congrArg List.length h
    simp at hlength
    omega
  | @number text token rest h htoken =>
    obtain ⟨c, more, rfl, -⟩ := htoken.head
    simp only [h, List.length_append, List.length_cons]
    omega
  | string h =>
    have hle := h.length_le
    rw [List.length_cons]
    omega
  | emptyArray h | emptyObject h =>
    have hlt := length_lt_of_skip_eq h
    rw [List.length_cons]
    omega
  | array _ ih | object _ ih =>
    rw [List.length_cons]
    omega
  | @lastElement _ text _ _ _ hclose ih =>
    have hle := length_skip_le text
    have hlt := length_lt_of_skip_eq hclose
    omega
  | @element _ _ text _ _ _ _ hcomma _ ih ih' =>
    have hle := length_skip_le text
    have hlt := length_lt_of_skip_eq hcomma
    omega
  | @member _ _ _ _ _ value _ hquote hkey hcolon _ ih =>
    have hquoted := length_lt_of_skip_eq hquote
    have hle := hkey.length_le
    have hvalue := length_lt_of_skip_eq hcolon
    have hskip := length_skip_le value
    omega
  | lastMember _ hclose ih =>
    have hlt := length_lt_of_skip_eq hclose
    omega
  | moreMembers _ hcomma _ ih ih' =>
    have hlt := length_lt_of_skip_eq hcomma
    omega

theorem Reads.length_string {points : List ℕ} {text rest : List Char}
    (h : Reads (.value (.string points)) text rest) :
    points.length + rest.length + 2 ≤ text.length := by
  cases h with
  | @string text _ units h =>
    have hle := h.length_le
    have hcombine := length_combine_le units
    rw [List.length_cons]
    omega

theorem Reads.length_member {key points : List ℕ} {text rest : List Char}
    (h : Reads (.member key (.string points)) text rest) :
    points.length + rest.length + 5 ≤ text.length := by
  cases h with
  | @member units _ _ key behind value _ hquote hkey hcolon hv =>
    have hquoted := length_lt_of_skip_eq hquote
    have hle := hkey.length_le
    have hvalue := length_lt_of_skip_eq hcolon
    have hskip := length_skip_le value
    have hstring := hv.length_string
    omega

theorem Reads.length_members {form : Form} {text rest : List Char} (h : Reads form text rest) :
    ∀ ms, form = .members ms → ∀ key points, (key, Json.string points) ∈ ms →
      points.length + rest.length + 6 ≤ text.length := by
  induction h with
  | lastMember hm hclose _ =>
    rintro ms ⟨⟩ key points hmem
    cases List.mem_singleton.mp hmem
    have hlt := length_lt_of_skip_eq hclose
    have hmember := hm.length_member
    omega
  | moreMembers hm hcomma hms _ ih =>
    rintro ms ⟨⟩ key points hmem
    have hlt := length_lt_of_skip_eq hcomma
    have hrest := hms.length_lt
    rcases List.mem_cons.mp hmem with hhead | htail
    · cases hhead
      have hmember := hm.length_member
      omega
    · have hlength := ih _ rfl key points htail
      have hmember := hm.length_lt
      omega
  | _ =>
    rintro ms ⟨⟩

/-! ## Pasted texts -/

/-- `{"key": "text"}`, with the text as it is. -/
def pasted (key text : List Char) : List Char :=
  '\x7b' :: '"' :: (key ++ '"' :: ':' :: ' ' :: '"' :: (text ++ ['"', '\x7d']))

section Pasted

variable {key text : List Char}

theorem member_of_pasted (hkey : ∀ c ∈ key, Plain c) {points : List ℕ} {v : Json}
    {behind : List Char}
    (h : Reads (.member points v)
      ('"' :: (key ++ '"' :: ':' :: ' ' :: '"' :: (text ++ ['"', '\x7d']))) behind) :
    points = codePoints key ∧ ∃ units, v = .string (combine units) ∧
      Quoted (text ++ ['"', '\x7d']) units behind := by
  cases h with
  | member hquote hread hcolon hv =>
    rw [skip_cons_of_not rfl] at hquote
    cases hquote
    obtain ⟨rfl, rfl⟩ := hread.eq_of_plain hkey
    rw [skip_cons_of_not rfl] at hcolon
    cases hcolon
    rw [skip_cons_of_blank rfl, skip_cons_of_not rfl] at hv
    refine ⟨combine_codePoints key, ?_⟩
    generalize hvalue : '"' :: (text ++ ['"', '\x7d']) = value at hv
    cases hv with
    | null h | true h | false h =>
      rw [← hvalue] at h
      cases h
    | number h htoken =>
      obtain ⟨c, more, rfl, hc⟩ := htoken.head
      rw [← hvalue] at h
      obtain ⟨rfl, -⟩ := List.cons.inj h
      rcases hc with hc | hc <;> cases hc
    | string hread =>
      cases hvalue
      exact ⟨_, rfl, hread⟩
    | emptyArray | array | emptyObject | object => cases hvalue

/-- If the string in a pasted text decodes to the text, it ends where the text does. -/
theorem plain_of_quoted {units : List ℕ} {behind : List Char}
    (h : Quoted (text ++ ['"', '\x7d']) units behind) (hunits : combine units = codePoints text)
    (hbehind : 0 < behind.length) : ∀ c ∈ text, Plain c := by
  have hle := length_combine_le units
  rw [hunits, codePoints, List.length_map] at hle
  have hlength : (text ++ ['"', '\x7d']).length = text.length + 2 := List.length_append
  obtain ⟨content, -, rfl, hcontent⟩ := h.plain_of_length (by omega)
  rw [combine_codePoints] at hunits
  rwa [← codePoints_injective hunits]

/-- Pasted between quotes, a text decodes to itself exactly if it needs no escape. -/
theorem lookup_pasted_iff (hkey : ∀ c ∈ key, Plain c) :
    (∃ ms, Decodes (pasted key text) (.object ms) ∧
      lookup (codePoints key) ms = some (.string (codePoints text))) ↔ ∀ c ∈ text, Plain c := by
  constructor
  · rintro ⟨ms, ⟨after, hreads, -⟩, hlookup⟩
    rw [pasted, skip_cons_of_not rfl] at hreads
    cases hreads with
    | emptyObject => cases hlookup
    | object hmembers =>
      cases hmembers with
      | lastMember hm hclose =>
        obtain ⟨rfl, units, rfl, hread⟩ := member_of_pasted hkey hm
        simp only [lookup, if_true, Option.some.injEq, Json.string.injEq] at hlookup
        exact plain_of_quoted hread hlookup (Nat.zero_lt_of_lt (length_lt_of_skip_eq hclose))
      | @moreMembers _ _ ms _ behind more _ hm hcomma hms =>
        obtain ⟨rfl, units, rfl, hread⟩ := member_of_pasted hkey hm
        have hmore := length_lt_of_skip_eq hcomma
        rw [lookup] at hlookup
        split at hlookup
        next v hv =>
          -- A later member is read from what the first one leaves, which is too short.
          cases hlookup
          have hshort := hms.length_members _ rfl _ _ (mem_of_lookup hv)
          have hlong := hread.length_le
          rw [codePoints, List.length_map] at hshort
          rw [List.length_append, List.length_cons, List.length_singleton] at hlong
          omega
        next =>
          simp only [if_true, Option.some.injEq, Json.string.injEq] at hlookup
          exact plain_of_quoted hread hlookup (Nat.zero_lt_of_lt hmore)
  · intro htext
    refine ⟨[(codePoints key, .string (codePoints text))], ⟨[], ?_, rfl⟩, by simp [lookup]⟩
    have hvalue : Reads (.value (.string (combine (codePoints text))))
        (skip (' ' :: '"' :: (text ++ ['"', '\x7d']))) ['\x7d'] :=
      .string (quoted_plain htext ['\x7d'])
    have hread := quoted_plain hkey (':' :: ' ' :: '"' :: (text ++ ['"', '\x7d']))
    have hmember := Reads.member (skip_cons_of_not rfl _) hread (skip_cons_of_not rfl _) hvalue
    rw [combine_codePoints, combine_codePoints] at hmember
    exact .object (.lastMember hmember rfl)

end Pasted

/-! ## Encoded texts -/

def shortEscape (c : Char) : Option Char :=
  match c with
  | '"' => some '"'
  | '\\' => some '\\'
  | '\x08' => some 'b'
  | '\x0c' => some 'f'
  | '\n' => some 'n'
  | '\r' => some 'r'
  | '\t' => some 't'
  | _ => none

def escapeChar (c : Char) : List Char :=
  match shortEscape c with
  | some e => ['\\', e]
  | none =>
    if c.toNat < 0x20 then
      ['\\', 'u', '0', '0', Nat.digitChar (c.toNat / 16), Nat.digitChar (c.toNat % 16)]
    else [c]

def encode (text : List Char) : List Char := text.flatMap escapeChar

def encodeValue : Option (List Char) → List Char
  | none => "null".toList
  | some text => '"' :: (encode text ++ ['"'])

def encodeMember (key : List Char) (value : Option (List Char)) : List Char :=
  '"' :: (encode key ++ '"' :: ':' :: encodeValue value)

def encodeMembers : List (List Char × Option (List Char)) → List Char
  | [] => ['\x7d']
  | [m] => encodeMember m.1 m.2 ++ ['\x7d']
  | m :: ms => encodeMember m.1 m.2 ++ ',' :: encodeMembers ms

def encodeObject (ms : List (List Char × Option (List Char))) : List Char :=
  '\x7b' :: encodeMembers ms

theorem escapeValue_of_shortEscape {c e : Char} (h : shortEscape c = some e) :
    escapeValue e = some c.toNat := by
  unfold shortEscape at h
  split at h <;> cases h <;> rfl

theorem unitValue_digitChar :
    ∀ n < 0x20, unitValue '0' '0' (Nat.digitChar (n / 16)) (Nat.digitChar (n % 16)) = some n := by
  decide

theorem plain_of_shortEscape {c : Char} (h : shortEscape c = none) (hc : 0x20 ≤ c.toNat) :
    Plain c := by
  refine ⟨?_, ?_, hc⟩
  · rintro rfl
    cases h
  · rintro rfl
    cases h

theorem quoted_escapeChar (c : Char) {text rest : List Char} {units : List ℕ}
    (h : Quoted text units rest) : Quoted (escapeChar c ++ text) (c.toNat :: units) rest := by
  unfold escapeChar
  split
  next e he => exact .escape (escapeValue_of_shortEscape he) h
  next hnone =>
    split_ifs with hc
    · exact .unicode (unitValue_digitChar c.toNat hc) h
    · exact .literal (plain_of_shortEscape hnone (not_lt.mp hc)) h

theorem quoted_encode (text rest : List Char) :
    Quoted (encode text ++ '"' :: rest) (codePoints text) rest := by
  induction text with
  | nil => exact .close
  | cons c text ih =>
    rw [encode, List.flatMap_cons, List.append_assoc]
    exact quoted_escapeChar c ih

theorem exists_reads_encodeValue (value : Option (List Char)) (rest : List Char) :
    ∃ v, Reads (.value v) (skip (encodeValue value ++ rest)) rest := by
  cases value with
  | none => exact ⟨.null, .null rfl⟩
  | some text =>
    refine ⟨.string (combine (codePoints text)), ?_⟩
    rw [encodeValue, List.cons_append, List.append_assoc, skip_cons_of_not rfl]
    exact .string (quoted_encode text rest)

theorem exists_reads_encodeMember (key : List Char) (value : Option (List Char))
    (rest : List Char) :
    ∃ points v, Reads (.member points v) (encodeMember key value ++ rest) rest := by
  obtain ⟨v, hv⟩ := exists_reads_encodeValue value rest
  refine ⟨combine (codePoints key), v, ?_⟩
  have hread := quoted_encode key (':' :: (encodeValue value ++ rest))
  have hmember := Reads.member (skip_cons_of_not rfl _) hread (skip_cons_of_not rfl _) hv
  simpa [encodeMember] using hmember

theorem isObject_encodeObject (ms : List (List Char × Option (List Char))) :
    IsObject (encodeObject ms) := by
  have hmembers : ∀ m ms, ∃ decoded, Reads (.members decoded) (encodeMembers (m :: ms)) [] := by
    intro m ms
    induction ms generalizing m with
    | nil =>
      obtain ⟨key, v, hm⟩ := exists_reads_encodeMember m.1 m.2 ['\x7d']
      exact ⟨_, .lastMember hm rfl⟩
    | cons next ms ih =>
      obtain ⟨decoded, hms⟩ := ih next
      obtain ⟨key, v, hm⟩ := exists_reads_encodeMember m.1 m.2 (',' :: encodeMembers (next :: ms))
      exact ⟨_, .moreMembers hm (skip_cons_of_not rfl _) hms⟩
  cases ms with
  | nil => exact ⟨[], [], .emptyObject rfl, rfl⟩
  | cons m ms =>
    obtain ⟨decoded, hms⟩ := hmembers m ms
    exact ⟨decoded, [], .object hms, rfl⟩

end JsonText
