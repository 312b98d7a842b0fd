import Mathlib.Data.List.DropRight
import Mathlib.Logic.Equiv.List
import Mathlib.Tactic

/-!
# Text as lists of characters

Stripping at both ends, replacing runs by one mark, lower-casing, hexadecimal digests, and
an injective code of strings. The first two work on lists over any type.
-/

namespace Text

section Runs

variable {α : Type*}

/-- Drop the elements with `p` at both ends. -/
def strip (p : α → Bool) (xs : List α) : List α := (xs.dropWhile p).rdropWhile p

/-- Replace every maximal run of elements without `keep` by one mark; `inRun` says whether
the element before was in such a run. -/
def replaceRuns (keep : α → Bool) (mark : α) (inRun : Bool) : List α → List α
  | [] => []
  | x :: xs =>
    if keep x then x :: replaceRuns keep mark false xs
    else if inRun then replaceRuns keep mark true xs
    else mark :: replaceRuns keep mark true xs

theorem mem_of_mem_strip {p : α → Bool} {xs : List α} {x : α} (h : x ∈ strip p xs) : x ∈ xs := by
  unfold strip at h
  have hpre := (List.rdropWhile_prefix p (xs.dropWhile p)).subset h
  exact (List.dropWhile_suffix p).subset hpre

theorem mem_dropWhile_of_not {p : α → Bool} {xs : List α} {x : α} (hx : x ∈ xs)
    (hp : p x = false) : x ∈ xs.dropWhile p := by
  rw [← List.takeWhile_append_dropWhile (p := p) (l := xs), List.mem_append] at hx
  apply hx.resolve_left
  intro htake
  have hpx := List.mem_takeWhile_imp htake
  simp [hp] at hpx

theorem mem_rdropWhile_of_not {p : α → Bool} {xs : List α} {x : α} (hx : x ∈ xs)
    (hp : p x = false) : x ∈ xs.rdropWhile p :=
  List.mem_reverse.mpr (mem_dropWhile_of_not (List.mem_reverse.mpr hx) hp)

theorem mem_strip_of_not {p : α → Bool} {xs : List α} {x : α} (hx : x ∈ xs)
    (hp : p x = false) : x ∈ strip p xs :=
  mem_rdropWhile_of_not (mem_dropWhile_of_not hx hp) hp

theorem strip_eq_nil_iff {p : α → Bool} {xs : List α} :
    strip p xs = [] ↔ ∀ x ∈ xs, p x = true := by
  constructor
  · intro h x hx
    by_contra hp
    have hmem := mem_strip_of_not hx (Bool.eq_false_of_not_eq_true hp)
    simp [h] at hmem
  · intro h
    apply List.eq_nil_iff_forall_not_mem.mpr
    intro x hx
    rw [strip, List.dropWhile_eq_nil_iff.mpr h] at hx
    simp at hx

theorem rdropWhile_cons (p : α → Bool) (x : α) (xs : List α) :
    (x :: xs).rdropWhile p =
      if xs.rdropWhile p = [] ∧ p x = true then [] else x :: xs.rdropWhile p := by
  induction xs using List.reverseRecOn with
  | nil => by_cases hx : p x <;> simp [List.rdropWhile_singleton, hx]
  | append_singleton xs y ih =>
    rw [← List.cons_append]
    by_cases hy : p y
    · rw [List.rdropWhile_concat_pos _ _ _ hy, List.rdropWhile_concat_pos _ _ _ hy, ih]
    · rw [List.rdropWhile_concat_neg _ _ _ hy, List.rdropWhile_concat_neg _ _ _ hy]
      simp

section Front

variable {p : α → Bool} {xs ys : List α} (hne : xs ≠ []) (hxs : ∀ x ∈ xs, p x = false)

include hne hxs

theorem dropWhile_append_of_not : (xs ++ ys).dropWhile p = xs ++ ys := by
  cases xs with
  | nil => exact absurd rfl hne
  | cons x xs => simp [hxs x List.mem_cons_self]

theorem rdropWhile_append_of_not : (xs ++ ys).rdropWhile p = xs ++ ys.rdropWhile p := by
  induction ys using List.reverseRecOn with
  | nil =>
    have hlast := hxs _ (List.getLast_mem hne)
    simp [List.rdropWhile_eq_self_iff, hlast]
  | append_singleton ys y ih =>
    rw [← List.append_assoc]
    by_cases hy : p y
    · rw [List.rdropWhile_concat_pos _ _ _ hy, List.rdropWhile_concat_pos _ _ _ hy, ih]
    · rw [List.rdropWhile_concat_neg _ _ _ hy, List.rdropWhile_concat_neg _ _ _ hy,
        List.append_assoc]

theorem strip_append_of_not : strip p (xs ++ ys) = xs ++ ys.rdropWhile p := by
  rw [strip, dropWhile_append_of_not hne hxs, rdropWhile_append_of_not hne hxs]

end Front

theorem mem_replaceRuns {keep : α → Bool} {mark x : α} {inRun : Bool} {xs : List α}
    (h : x ∈ replaceRuns keep mark inRun xs) : x = mark ∨ keep x = true := by
  induction xs generalizing inRun with
  | nil => simp [replaceRuns] at h
  | cons y ys ih =>
    unfold replaceRuns at h
    split_ifs at h with hkeep hrun
    · rcases List.mem_cons.mp h with rfl | h
      · exact Or.inr hkeep
      · exact ih h
    · exact ih h
    · rcases List.mem_cons.mp h with rfl | h
      · exact Or.inl rfl
      · exact ih h

theorem eq_or_mem_of_mem_intercalate {mark x : α} {parts : List (List α)}
    (h : x ∈ [mark].intercalate parts) : x = mark ∨ ∃ part ∈ parts, x ∈ part := by
  induction parts with
  | nil => simp at h
  | cons part parts ih =>
    cases parts with
    | nil => exact Or.inr ⟨part, List.mem_cons_self, by simpa using h⟩
    | cons next parts =>
      rw [List.intercalate_cons_cons, List.mem_append, List.mem_append] at h
      rcases h with (h | h) | h
      · exact Or.inr ⟨part, List.mem_cons_self, h⟩
      · exact Or.inl (List.mem_singleton.mp h)
      · rcases ih h with rfl | ⟨part', hpart', hx⟩
        · exact Or.inl rfl
        · exact Or.inr ⟨part', List.mem_cons_of_mem _ hpart', hx⟩

theorem exists_mem_splitOn [DecidableEq α] {mark x : α} {xs : List α} (hx : x ∈ xs)
    (hne : x ≠ mark) : ∃ part ∈ xs.splitOn mark, x ∈ part := by
  have hjoin : [mark].intercalate (xs.splitOn mark) = xs := List.intercalate_splitOn mark
  rw [← hjoin] at hx
  exact (eq_or_mem_of_mem_intercalate hx).resolve_left hne

end Runs

/-- The white space that Python's `str.strip` removes. -/
def isSpace (c : Char) : Bool :=
  c.toNat ∈ [0x9, 0xa, 0xb, 0xc, 0xd, 0x1c, 0x1d, 0x1e, 0x1f, 0x20, 0x85, 0xa0, 0x1680, 0x2000,
    0x2001, 0x2002, 0x2003, 0x2004, 0x2005, 0x2006, 0x2007, 0x2008, 0x2009, 0x200a, 0x2028, 0x2029,
    0x202f, 0x205f, 0x3000]

/-- Lower case as far as ASCII letters and digits go: U+0130 and U+212A are the only other
characters whose lower case contains one. The rest is left as it is. -/
def lowerChar (c : Char) : List Char :=
  if c.toNat = 0x130 then ['i', Char.ofNat 0x307]
  else if c.toNat = 0x212a then ['k']
  else [c.toLower]

def lower (text : List Char) : List Char := text.flatMap lowerChar

def hexdigest (digest : BitVec 160) : List Char :=
  (List.range 40).map fun i => Nat.digitChar (digest.toNat / 16 ^ (39 - i) % 16)

@[simp] theorem length_hexdigest (digest : BitVec 160) : (hexdigest digest).length = 40 := by
  simp [hexdigest]

def stringCode (text : String) : ℕ := Encodable.encode (text.toList.map Char.toNat)

theorem stringCode_injective : Function.Injective stringCode := by
  intro s t h
  have hcodes : s.toList.map Char.toNat = t.toList.map Char.toNat := Encodable.encode_injective h
  have hchar : Function.Injective Char.toNat := fun a b hab => Char.ext (UInt32.toNat_inj.mp hab)
  exact String.toList_injective (List.map_injective_iff.mpr hchar hcodes)

end Text
