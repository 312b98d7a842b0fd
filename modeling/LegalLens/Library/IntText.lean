import LegalLens.Library.Text

/-!
# Python's `int` on strings

A text is first mapped to ASCII, blanks at both ends are dropped, and a sign may stand in
front of decimal digits with single underscores between them. The decimal digits of Unicode
outside ASCII are a parameter.
-/

namespace IntText

/-- The blanks that are dropped, once the text is ASCII. -/
def isBlank (c : Char) : Bool := c.toNat ∈ [0x9, 0xa, 0xb, 0xc, 0xd, 0x20]

/-- The most digits that are converted. -/
def maxStrDigits : ℕ := 4300

/-- Digits in groups with one underscore between two of them. -/
def magnitude (text : List Char) : Option ℕ :=
  let groups := text.splitOn '_'
  if groups.all (fun group => !group.isEmpty && group.all Char.isDigit) ∧
      groups.flatten.length ≤ maxStrDigits then
    some (Nat.ofDigitChars 10 groups.flatten 0)
  else none

section Int

variable (decimal : Char → Option (Fin 10))

/-- White space becomes a space and a decimal digit its ASCII digit. -/
def toAscii (c : Char) : Char :=
  if c.toNat < 127 then c
  else if Text.isSpace c then ' '
  else
    match decimal c with
    | some d => Nat.digitChar d
    | none => '?'

/-- `int(text)`; `none` where it raises. -/
def int (text : List Char) : Option ℤ :=
  match Text.strip isBlank (text.map (toAscii decimal)) with
  | '+' :: digits => (magnitude digits).map fun n => n
  | '-' :: digits => (magnitude digits).map fun n => -n
  | digits => (magnitude digits).map fun n => n

end Int

/-- The white space that may follow the digits; the information separators are left in. -/
def isSkipped (c : Char) : Bool := Text.isSpace c && !(0x1c ≤ c.toNat && c.toNat ≤ 0x1f)

section Magnitude

theorem magnitude_of_digits {text : List Char} (hne : text ≠ [])
    (hdigits : ∀ c ∈ text, c.isDigit = true) :
    magnitude text =
      if text.length ≤ maxStrDigits then some (Nat.ofDigitChars 10 text 0) else none := by
  have hsplit : text.splitOn '_' = [text] :=
    List.splitOn_eq_singleton fun h => absurd (hdigits '_' h) (by decide)
  have hgroups : [text].all (fun group => !group.isEmpty && group.all Char.isDigit) = true := by
    simpa [hne] using hdigits
  simp only [magnitude, hsplit, List.flatten_singleton]
  exact if_congr (and_iff_right hgroups) rfl rfl

theorem magnitude_eq_none {text : List Char} {c : Char} (hc : c ∈ text)
    (hdigit : c.isDigit = false) (hunderscore : c ≠ '_') : magnitude text = none := by
  obtain ⟨group, hgroup, hmem⟩ := Text.exists_mem_splitOn hc hunderscore
  apply if_neg
  intro h
  have hdigits := List.all_eq_true.mp h.1 group hgroup
  have hc' := List.all_eq_true.mp (Bool.and_eq_true_iff.mp hdigits).2 c hmem
  simp [hdigit] at hc'

end Magnitude

section Digits

theorem toNat_of_isDigit {c : Char} (h : c.isDigit = true) : 48 ≤ c.toNat ∧ c.toNat ≤ 57 := by
  simpa [Char.isDigit, UInt32.le_iff_toNat_le] using h

theorem isBlank_of_isDigit {c : Char} (h : c.isDigit = true) : isBlank c = false := by
  have hc := toNat_of_isDigit h
  simp only [isBlank, List.mem_cons, List.not_mem_nil, or_false, decide_eq_false_iff_not]
  omega

variable (decimal : Char → Option (Fin 10))

theorem toAscii_of_isDigit {c : Char} (h : c.isDigit = true) : toAscii decimal c = c :=
  if_pos (by have hc := toNat_of_isDigit h; omega)

theorem map_toAscii_of_digits {text : List Char} (hdigits : ∀ c ∈ text, c.isDigit = true) :
    text.map (toAscii decimal) = text :=
  (List.map_congr_left fun c hc => toAscii_of_isDigit decimal (hdigits c hc)).trans text.map_id'

theorem isBlank_toAscii {c : Char} (h : Text.isSpace c = true) :
    isBlank (toAscii decimal c) = isSkipped c := by
  rw [isSkipped, h, Bool.true_and]
  have hspace := h
  simp only [Text.isSpace, List.mem_cons, List.not_mem_nil, or_false, decide_eq_true_eq] at hspace
  by_cases hascii : c.toNat < 127
  · rw [toAscii, if_pos hascii, Bool.eq_iff_iff]
    simp only [isBlank, List.mem_cons, List.not_mem_nil, or_false, decide_eq_true_eq,
      Bool.not_eq_true', Bool.and_eq_false_iff, decide_eq_false_iff_not]
    omega
  · have hlarge : ¬(0x1c ≤ c.toNat ∧ c.toNat ≤ 0x1f) := by omega
    rw [toAscii, if_neg hascii, if_pos h]
    rw [Bool.eq_iff_iff]
    simp only [Bool.not_eq_true', Bool.and_eq_false_iff, decide_eq_false_iff_not]
    exact iff_of_true (by decide) (by omega)

theorem toAscii_of_not_isSkipped {c : Char} (h : Text.isSpace c = true)
    (hskipped : isSkipped c = false) :
    (toAscii decimal c).isDigit = false ∧ toAscii decimal c ≠ '_' := by
  have hrange : 0x1c ≤ c.toNat ∧ c.toNat ≤ 0x1f := by
    simpa [isSkipped, h] using hskipped
  rw [toAscii, if_pos (by omega)]
  constructor
  · by_contra hdigit
    have hc := toNat_of_isDigit (Bool.eq_true_of_not_eq_false hdigit)
    omega
  · rintro rfl
    exact absurd hrange (by decide)

end Digits

section Append

variable (decimal : Char → Option (Fin 10)) {digits after : List Char} (hne : digits ≠ [])
  (hdigits : ∀ c ∈ digits, c.isDigit = true)

include hne hdigits

theorem strip_digits_append :
    Text.strip isBlank ((digits ++ after).map (toAscii decimal)) =
      digits ++ (after.map (toAscii decimal)).rdropWhile isBlank := by
  rw [List.map_append, map_toAscii_of_digits decimal hdigits]
  exact Text.strip_append_of_not hne fun c hc => isBlank_of_isDigit (hdigits c hc)

theorem int_eq_magnitude :
    int decimal (digits ++ after) =
      (magnitude (digits ++ (after.map (toAscii decimal)).rdropWhile isBlank)).map
        fun n => (n : ℤ) := by
  rw [int, strip_digits_append decimal hne hdigits]
  cases digits with
  | nil => exact absurd rfl hne
  | cons d ds =>
    have hd := hdigits d List.mem_cons_self
    rw [List.cons_append]
    split
    next heq =>
      have hsign : d = '+' := (List.cons.inj heq).1
      exact absurd (hsign ▸ hd) (by decide)
    next heq =>
      have hsign : d = '-' := (List.cons.inj heq).1
      exact absurd (hsign ▸ hd) (by decide)
    next => rfl

/-- Digits and white space after them: how many digits there are and which white space it is
decide whether the text is converted. -/
theorem int_digits_append (hafter : ∀ c ∈ after, Text.isSpace c = true) :
    int decimal (digits ++ after) =
      if digits.length ≤ maxStrDigits ∧ after.all isSkipped = true then
        some (Nat.ofDigitChars 10 digits 0 : ℤ)
      else none := by
  rw [int_eq_magnitude decimal hne hdigits]
  by_cases hskipped : after.all isSkipped = true
  · have htail : (after.map (toAscii decimal)).rdropWhile isBlank = [] := by
      apply List.rdropWhile_eq_nil_iff.mpr
      intro x hx
      obtain ⟨c, hc, rfl⟩ := List.mem_map.mp hx
      rw [isBlank_toAscii decimal (hafter c hc), List.all_eq_true.mp hskipped c hc]
    rw [htail, List.append_nil, magnitude_of_digits hne hdigits]
    by_cases hlen : digits.length ≤ maxStrDigits
    · rw [if_pos hlen, if_pos ⟨hlen, hskipped⟩]
      rfl
    · rw [if_neg hlen, if_neg fun h => hlen h.1]
      rfl
  · rw [if_neg fun h => hskipped h.2]
    obtain ⟨c, hc, hsep⟩ := List.all_eq_false.mp (Bool.eq_false_of_not_eq_true hskipped)
    have hsep := Bool.eq_false_of_not_eq_true hsep
    obtain ⟨hdigit, hunderscore⟩ := toAscii_of_not_isSkipped decimal (hafter c hc) hsep
    have hmem : toAscii decimal c ∈ (after.map (toAscii decimal)).rdropWhile isBlank := by
      apply Text.mem_rdropWhile_of_not (List.mem_map_of_mem hc)
      rw [isBlank_toAscii decimal (hafter c hc), hsep]
    rw [magnitude_eq_none (List.mem_append_right digits hmem) hdigit hunderscore]
    rfl

end Append

section Numerals

def numeral (zeros number : ℕ) : List Char := List.replicate zeros '0' ++ Nat.toDigits 10 number

variable (zeros number : ℕ)

theorem numeral_ne_nil : numeral zeros number ≠ [] := by
  simp [numeral]

theorem isDigit_of_mem_numeral {c : Char} (h : c ∈ numeral zeros number) : c.isDigit = true := by
  rcases List.mem_append.mp h with h | h
  · rw [List.eq_of_mem_replicate h]
    decide
  · exact Nat.isDigit_of_mem_toDigits (by decide) (by decide) h

@[simp] theorem ofDigitChars_numeral : Nat.ofDigitChars 10 (numeral zeros number) 0 = number := by
  simp [numeral, Nat.ofDigitChars_append, Nat.ofDigitChars_replicate_zero]

end Numerals

end IntText
