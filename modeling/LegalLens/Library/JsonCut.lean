import LegalLens.Library.JsonParser

/-!
# JSON texts that are cut off

When a text goes on behind what a parser has read, the parser reads the same, as long as a number
at the end does not go on. An array ends with its bracket whatever follows. So the text of an array
that is cut off anywhere is refused.
-/

namespace JsonText

theorem skip_append {text rest : List Char} {c : Char} (h : skip text = c :: rest)
    (more : List Char) : skip (text ++ more) = c :: (rest ++ more) := by
  unfold skip at h ⊢
  rw [List.dropWhile_append, h]
  rfl

theorem skip_append_ne {text : List Char} (hne : skip text ≠ []) {c : Char}
    (hc : ∀ rest, skip text ≠ c :: rest) (more rest : List Char) :
    skip (text ++ more) ≠ c :: rest := by
  obtain ⟨d, tail, htext⟩ := List.exists_cons_of_ne_nil hne
  rw [skip_append htext]
  intro h
  cases h
  exact hc tail htext

theorem Quoted.append {text rest : List Char} {units : List ℕ} (h : Quoted text units rest)
    (more : List Char) : Quoted (text ++ more) units (rest ++ more) := by
  induction h with
  | close => exact .close
  | literal hc _ ih => exact .literal hc ih
  | escape hc _ ih => exact .escape hc ih
  | unicode hn _ ih => exact .unicode hn ih

theorem parseQuoted_append {text rest : List Char} {units : List ℕ}
    (h : parseQuoted text = some (units, rest)) (more : List Char) :
    parseQuoted (text ++ more) = some (units, rest ++ more) :=
  ((quoted_of_parseQuoted h).append more).parseQuoted

/-- What is read of a text is read of a longer one, if it may end where it does. -/
def Extends {α : Type*} (parse : List Char → Option (α × List Char)) : Prop :=
  ∀ text a rest, parse text = some (a, rest) → ∀ more, Delimited (rest ++ more) →
    parse (text ++ more) = some (a, rest ++ more)

section Items

variable {α : Type*} {item : List Char → Option (α × List Char)} {close : Char} {n : ℕ}
  {text rest : List Char} {as : List α}

theorem length_le_of_items (h : items item close n text = some (as, rest)) : as.length ≤ n := by
  induction n generalizing text as with
  | zero => cases h
  | succ n ih =>
    rw [items] at h
    split at h
    next => cases h
    next a behind ha =>
      split at h
      next => cases h
      next c more hskip =>
        split_ifs at h
        · cases h
          exact Nat.succ_le_succ (Nat.zero_le n)
        · obtain ⟨⟨others, rest'⟩, hothers, heq⟩ := Option.map_eq_some_iff.mp h
          cases heq
          exact Nat.succ_le_succ (ih hothers)

theorem exists_of_items (h : items item close n text = some (as, rest)) :
    ∃ a behind, item text = some (a, behind) :=
  items_spec (P := fun a text behind => item text = some (a, behind))
    (Q := fun _ text _ => ∃ a behind, item text = some (a, behind)) id
    (fun ha _ => ⟨_, _, ha⟩) (fun ha _ _ => ⟨_, _, ha⟩) h

theorem items_append (hitem : Extends item) (hclose : close = ']' ∨ close = '\x7d')
    (h : items item close n text = some (as, rest)) (more : List Char) {m : ℕ}
    (hm : n ≤ m) : items item close m (text ++ more) = some (as, rest ++ more) := by
  refine items_spec (P := fun a text rest => item text = some (a, rest))
    (Q := fun as text rest => ∀ m, as.length ≤ m →
      items item close m (text ++ more) = some (as, rest ++ more)) id ?_ ?_ h m
    ((length_le_of_items h).trans hm)
  · rintro a text behind rest ha hskip (- | m) hm
    · cases hm
    · have hend := skip_append hskip more
      have hstop : Delimited (behind ++ more) := delimited_of_skip hend (Or.inr hclose)
      exact items_last (hitem text a behind ha more hstop) hend
  · rintro a as text behind others rest ha hskip has (- | m) hm
    · cases hm
    · have hcomma := skip_append hskip more
      have hstop : Delimited (behind ++ more) := delimited_of_skip hcomma (Or.inl rfl)
      have hne : close ≠ ',' := by
        rcases hclose with rfl | rfl <;> decide
      exact items_more hne (hitem text a behind ha more hstop) hcomma
        (has m (Nat.le_of_succ_le_succ hm))

end Items

section Nested

variable {value : List Char → Option (Json × List Char)} {text rest : List Char}

theorem skip_ne_nil_of_element (hnil : value [] = none) {v : Json}
    (h : element value text = some (v, rest)) : skip text ≠ [] := by
  intro htext
  rw [element, htext, hnil] at h
  cases h

theorem skip_ne_nil_of_member {m : List ℕ × Json} (h : member value text = some (m, rest)) :
    skip text ≠ [] := by
  intro htext
  rw [member, htext] at h
  cases h

variable (hvalue : Extends value) (hnil : value [] = none)

include hvalue hnil

theorem Extends.element : Extends (element value) := by
  intro text v rest h more hmore
  obtain ⟨c, tail, htext⟩ := List.exists_cons_of_ne_nil (skip_ne_nil_of_element hnil h)
  rw [JsonText.element, htext] at h
  rw [JsonText.element, skip_append htext]
  exact hvalue _ v rest h more hmore

theorem Extends.member : Extends (member value) := by
  intro text m rest h more hmore
  unfold JsonText.member at h ⊢
  split at h
  next key hquote =>
    split at h
    next => cases h
    next units behind hkey =>
      split at h
      next tail hcolon =>
        obtain ⟨⟨v, rest'⟩, hv, heq⟩ := Option.map_eq_some_iff.mp h
        cases heq
        have hread := hvalue.element hnil tail v rest' hv more hmore
        unfold JsonText.element at hread
        simp only [skip_append hquote, parseQuoted_append hkey, skip_append hcolon, hread,
          Option.map_some]
      next => cases h
  next => cases h

theorem array_append {v : Json} (h : array value text = some (v, rest)) (more : List Char) :
    array value (text ++ more) = some (v, rest ++ more) := by
  unfold array at h
  split at h
  next behind hskip =>
    cases h
    simp only [array, skip_append hskip]
  next hne =>
    obtain ⟨⟨vs, rest'⟩, hitems, heq⟩ := Option.map_eq_some_iff.mp h
    cases heq
    obtain ⟨w, after, hw⟩ := exists_of_items hitems
    apply array_of_items (skip_append_ne (skip_ne_nil_of_element hnil hw) hne more)
    apply items_append (hvalue.element hnil) (Or.inl rfl) hitems
    rw [List.length_append]
    exact Nat.le_add_right ..

theorem object_append {v : Json} (h : object value text = some (v, rest)) (more : List Char) :
    object value (text ++ more) = some (v, rest ++ more) := by
  unfold object at h
  split at h
  next behind hskip =>
    cases h
    simp only [object, skip_append hskip]
  next hne =>
    obtain ⟨⟨ms, rest'⟩, hitems, heq⟩ := Option.map_eq_some_iff.mp h
    cases heq
    obtain ⟨m, after, hm⟩ := exists_of_items hitems
    apply object_of_items (skip_append_ne (skip_ne_nil_of_member hm) hne more)
    apply items_append (hvalue.member hnil) (Or.inr rfl) hitems
    rw [List.length_append]
    exact Nat.le_add_right ..

end Nested

section Values

variable {array object : List Char → Option (Json × List Char)}

theorem valueWith_nonFinite {w : List Char} (hw : w ∈ nonFinite) (rest : List Char) :
    valueWith nonFinite array object (w ++ rest) = some (.number w, rest) := by
  simp only [nonFinite, List.mem_cons, List.not_mem_nil, or_false] at hw
  rcases hw with rfl | rfl | rfl
  · have hword : "NaN".toList = ['N', 'a', 'N'] := rfl
    simp [hword, valueWith, number, takeSign, integer, digits, word, nonFinite, List.dropPrefix?]
  · have hword : "Infinity".toList = ['I', 'n', 'f', 'i', 'n', 'i', 't', 'y'] := rfl
    simp [hword, valueWith, number, takeSign, integer, digits, word, nonFinite, List.dropPrefix?]
  · have hword : "-Infinity".toList = ['-', 'I', 'n', 'f', 'i', 'n', 'i', 't', 'y'] := rfl
    simp [hword, valueWith, number, takeSign, integer, digits, word, nonFinite, List.dropPrefix?]

theorem extends_valueWith
    (harray : ∀ text v rest, array text = some (v, rest) → ∀ more,
      array (text ++ more) = some (v, rest ++ more))
    (hobject : ∀ text v rest, object text = some (v, rest) → ∀ more,
      object (text ++ more) = some (v, rest ++ more)) :
    Extends (valueWith nonFinite array object) := by
  intro text v rest h more hmore
  unfold valueWith at h
  split at h
  next text =>
    obtain ⟨⟨units, rest'⟩, hread, heq⟩ := Option.map_eq_some_iff.mp h
    cases heq
    simp only [List.cons_append, valueWith, parseQuoted_append hread, Option.map_some]
  next text => exact harray text v rest h more
  next text => exact hobject text v rest h more
  next =>
    split at h
    next token rest' hnumber =>
      cases h
      obtain ⟨rfl, htoken⟩ := number_spec hnumber
      rw [List.append_assoc]
      exact valueWith_number _ _ _ htoken hmore
    next =>
      obtain ⟨w, hw, hdrop⟩ := List.exists_of_findSome?_eq_some h
      obtain ⟨rest', hrest, heq⟩ := Option.map_eq_some_iff.mp hdrop
      obtain ⟨word, htext, hword⟩ := List.dropPrefix?_eq_some_iff.mp hrest
      cases heq
      rw [htext, eq_of_beq hword, List.append_assoc]
      rcases List.mem_append.mp hw with hw | hw
      · simp only [List.mem_cons, List.not_mem_nil, or_false] at hw
        rcases hw with rfl | rfl | rfl
        · exact valueWith_null ..
        · exact valueWith_true ..
        · exact valueWith_false ..
      · obtain ⟨constant, hconstant, rfl⟩ := List.mem_map.mp hw
        exact valueWith_nonFinite hconstant _

theorem parseValue_nil (limit : ℕ) : parseValue nonFinite limit [] = none := by
  cases limit <;> rfl

theorem extends_parseValue (limit : ℕ) : Extends (parseValue nonFinite limit) := by
  induction limit with
  | zero => exact extends_valueWith (fun _ _ _ h => by cases h) fun _ _ _ h => by cases h
  | succ limit ih =>
    have hnil := parseValue_nil limit
    exact extends_valueWith (fun _ _ _ h => array_append ih hnil h)
      fun _ _ _ h => object_append ih hnil h

end Values

/-- The text of an array that is cut off is no text of any value. -/
theorem loads_cut {limit : ℕ} {vs : List Json} {cut more : List Char}
    (hreads : Reads (.value (.array vs)) (cut ++ more) []) (hdepth : (Json.array vs).depth ≤ limit)
    (hmore : more ≠ []) : loads nonFinite limit cut = none := by
  obtain ⟨limit, rfl⟩ : ∃ n, limit = n + 1 :=
    Nat.exists_eq_add_of_le' ((Nat.le_add_left 1 _).trans hdepth)
  cases cut with
  | nil => rfl
  | cons c cut =>
    have hparse := hreads.parses nonFinite (limit + 1) hdepth fun c hc => by cases hc
    obtain rfl : c = '[' := by
      cases hreads with
      | emptyArray | array => rfl
    rw [loads, skip_cons_of_not rfl]
    cases hcut : array (parseValue nonFinite limit) cut with
    | none => simp only [parseValue, valueWith, hcut]
    | some r =>
      -- The parser would stop in front of what has been cut off.
      have hstop := array_append (extends_parseValue limit) (parseValue_nil limit) hcut more
      simp only [List.cons_append, parseValue, valueWith, hstop, Option.some.injEq,
        Prod.mk.injEq, List.append_eq_nil_iff] at hparse
      exact absurd hparse.2.2 hmore

end JsonText
