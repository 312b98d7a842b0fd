import LegalLens.Library.IntText
import LegalLens.Library.Sequences

/-!
# The Sentinel addresses of the settings

`SentinelClient.from_settings` splits `redis_sentinels` into tuples and unpacks every tuple
into a host and a port. The object of the Redis library is represented by the addresses it
is made from, and the decimal digits of Unicode are a parameter.
-/

namespace LegalLens.Coordination

structure Settings where
  redisSentinels : String
  redisMasterName : String

structure SentinelClient where
  sentinels : List (String × ℤ)
  masterName : String
  deriving DecidableEq

inductive ValueError where
  | notEnoughValues
  | tooManyValues
  | invalidInt
  deriving DecidableEq

namespace SentinelClient

/-- The first comprehension: a tuple of parts for every entry that is not blank. -/
def sentinelTuples (redisSentinels : List Char) : List (List (List Char)) :=
  ((redisSentinels.splitOn ',').filter fun h => Text.strip Text.isSpace h ≠ []).map fun h =>
    h.splitOn ':'

variable (decimal : Char → Option (Fin 10))

/-- The second comprehension at one tuple, which is unpacked into `h` and `p`. -/
def sentinelAddress : List (List Char) → Except ValueError (String × ℤ)
  | [h, p] =>
    if p = [] then .ok (String.ofList h, 26379)
    else
      match IntText.int decimal p with
      | some port => .ok (String.ofList h, port)
      | none => .error .invalidInt
  | parts => .error (if parts.length < 2 then .notEnoughValues else .tooManyValues)

def fromSettings (s : Settings) : Except ValueError SentinelClient :=
  ((sentinelTuples s.redisSentinels.toList).mapM (sentinelAddress decimal)).map
    fun sentinels => ⟨sentinels, s.redisMasterName⟩

end SentinelClient

/-! ## The entries of a list and how they are written -/

/-- White space around an entry, or in the place of one. -/
structure Blanks where
  chars : List Char
  isSpace : ∀ c ∈ chars, Text.isSpace c = true

structure Host where
  chars : List Char
  nonempty : chars ≠ []
  plain : ∀ c ∈ chars, c ≠ ':' ∧ c ≠ ',' ∧ Text.isSpace c = false

/-- A decimal number and the zeros written in front of it. -/
structure Port where
  zeros : ℕ
  number : ℕ

def Port.digits (p : Port) : List Char := IntText.numeral p.zeros p.number

def portText : Option Port → List Char
  | none => []
  | some p => ':' :: p.digits

/-- The number of a port, or the documented default. -/
def portNumber : Option Port → ℤ
  | none => 26379
  | some p => p.number

structure SentinelEntry where
  before : Blanks
  host : Host
  port : Option Port
  after : Blanks

namespace SentinelEntry

def text (e : SentinelEntry) : List Char :=
  e.before.chars ++ e.host.chars ++ portText e.port ++ e.after.chars

def address (e : SentinelEntry) : String × ℤ := (String.ofList e.host.chars, portNumber e.port)

end SentinelEntry

inductive SentinelItem where
  | entry (e : SentinelEntry)
  | empty (blanks : Blanks)

namespace SentinelItem

def text : SentinelItem → List Char
  | entry e => e.text
  | empty blanks => blanks.chars

def entry? : SentinelItem → Option SentinelEntry
  | entry e => some e
  | empty _ => none

def render (items : List SentinelItem) : String :=
  String.ofList ([','].intercalate (items.map text))

def entries (items : List SentinelItem) : List SentinelEntry := items.filterMap entry?

end SentinelItem

/-! ## What is read back -/

namespace SentinelEntry

/-- What the code asks of an entry: the port is given, with no more digits than are converted,
nothing stands in front of the host, and no information separator stands after the port. -/
def Accepted (e : SentinelEntry) : Prop :=
  (∃ p, e.port = some p ∧ p.digits.length ≤ IntText.maxStrDigits) ∧ e.before.chars = [] ∧
    ∀ c ∈ e.after.chars, IntText.isSkipped c = true

def parts (e : SentinelEntry) : List (List Char) :=
  match e.port with
  | none => [e.before.chars ++ e.host.chars ++ e.after.chars]
  | some p => [e.before.chars ++ e.host.chars, p.digits ++ e.after.chars]

end SentinelEntry

namespace SentinelClient

open SentinelItem

variable {c : Char}

theorem notMem_blanks {blanks : Blanks} (h : Text.isSpace c = false) : c ∉ blanks.chars :=
  fun hc => Bool.false_ne_true (h.symm.trans (blanks.isSpace c hc))

theorem notMem_digits {p : Port} (h : c.isDigit = false) : c ∉ p.digits :=
  fun hc => Bool.false_ne_true (h.symm.trans (IntText.isDigit_of_mem_numeral _ _ hc))

theorem splitOn_text (e : SentinelEntry) : e.text.splitOn ':' = e.parts := by
  have hbefore : ':' ∉ e.before.chars := notMem_blanks (by decide)
  have hafter : ':' ∉ e.after.chars := notMem_blanks (by decide)
  have hhost : ':' ∉ e.host.chars := fun h => (e.host.plain ':' h).1 rfl
  unfold SentinelEntry.text SentinelEntry.parts
  cases e.port with
  | none =>
    rw [portText, List.append_nil]
    exact List.splitOn_eq_singleton (by simp [hbefore, hafter, hhost])
  | some p =>
    have hdigits : ':' ∉ p.digits := notMem_digits (by decide)
    rw [portText, List.append_assoc, List.cons_append,
      List.splitOn_append_cons_self_of_not_mem (by simp [hbefore, hhost]),
      List.splitOn_eq_singleton (by simp [hdigits, hafter])]

theorem comma_notMem_text (item : SentinelItem) : ',' ∉ item.text := by
  cases item with
  | empty blanks => exact notMem_blanks (by decide)
  | entry e =>
    have hbefore : ',' ∉ e.before.chars := notMem_blanks (by decide)
    have hafter : ',' ∉ e.after.chars := notMem_blanks (by decide)
    have hhost : ',' ∉ e.host.chars := fun h => (e.host.plain ',' h).2.1 rfl
    have hport : ',' ∉ portText e.port := by
      cases e.port with
      | none => exact List.not_mem_nil
      | some p => simpa [portText] using notMem_digits (p := p) (c := ',') (by decide)
    simp [text, SentinelEntry.text, hbefore, hafter, hhost, hport]

theorem strip_entry (e : SentinelEntry) : Text.strip Text.isSpace (entry e).text ≠ [] := by
  intro h
  obtain ⟨c, hc⟩ := List.exists_mem_of_ne_nil _ e.host.nonempty
  have hspace := Text.strip_eq_nil_iff.mp h c (by simp [text, SentinelEntry.text, hc])
  rw [(e.host.plain c hc).2.2] at hspace
  contradiction

theorem strip_empty (blanks : Blanks) : Text.strip Text.isSpace (empty blanks).text = [] :=
  Text.strip_eq_nil_iff.mpr blanks.isSpace

theorem filter_text (items : List SentinelItem) :
    ((items.map text).filter fun h => Text.strip Text.isSpace h ≠ []) =
      (entries items).map SentinelEntry.text := by
  induction items with
  | nil => rfl
  | cons item items ih =>
    rw [List.map_cons]
    cases item with
    | entry e =>
      rw [List.filter_cons, if_pos (decide_eq_true (strip_entry e)), ih]
      rfl
    | empty blanks =>
      rw [List.filter_cons, if_neg (by simp [strip_empty]), ih]
      rfl

theorem sentinelTuples_render (items : List SentinelItem) :
    sentinelTuples (render items).toList = (entries items).map SentinelEntry.parts := by
  unfold sentinelTuples render
  rw [String.toList_ofList]
  cases items with
  | nil => rfl
  | cons item items =>
    have hcomma : ∀ part ∈ (item :: items).map text, ',' ∉ part :=
      List.forall_mem_map.mpr fun item _ => comma_notMem_text item
    rw [List.splitOn_intercalate ',' hcomma (by simp), filter_text, List.map_map]
    exact List.map_congr_left fun e _ => splitOn_text e

theorem sentinelAddress_pair (decimal : Char → Option (Fin 10)) (h : List Char) (p : Port)
    (after : Blanks) :
    sentinelAddress decimal [h, p.digits ++ after.chars] =
      if p.digits.length ≤ IntText.maxStrDigits ∧ after.chars.all IntText.isSkipped = true then
        .ok (String.ofList h, p.number)
      else .error .invalidInt := by
  have hne : p.digits ≠ [] := IntText.numeral_ne_nil _ _
  have hint := IntText.int_digits_append decimal hne
    (fun _ => IntText.isDigit_of_mem_numeral _ _) after.isSpace
  have hvalue : Nat.ofDigitChars 10 p.digits 0 = p.number := IntText.ofDigitChars_numeral _ _
  have hnonempty : p.digits ++ after.chars ≠ [] := List.append_ne_nil_of_left_ne_nil hne _
  rw [sentinelAddress, if_neg hnonempty, hint, hvalue]
  split_ifs <;> rfl

theorem ofList_append_eq_iff {xs ys : List Char} :
    String.ofList (xs ++ ys) = String.ofList ys ↔ xs = [] := by
  rw [String.ofList_inj]
  exact List.append_left_eq_self

/-- The tuple of an entry is read back to the pair that the entry stands for exactly when the
entry is accepted. -/
theorem sentinelAddress_parts_iff (decimal : Char → Option (Fin 10)) (e : SentinelEntry) :
    sentinelAddress decimal e.parts = .ok e.address ↔ e.Accepted := by
  unfold SentinelEntry.parts SentinelEntry.address SentinelEntry.Accepted
  cases e.port with
  | none => simp [sentinelAddress]
  | some p =>
    rw [sentinelAddress_pair]
    by_cases hok : p.digits.length ≤ IntText.maxStrDigits ∧
        e.after.chars.all IntText.isSkipped = true
    · rw [if_pos hok]
      simp only [Except.ok.injEq, Prod.mk.injEq, portNumber, and_true]
      rw [ofList_append_eq_iff]
      exact ⟨fun h => ⟨⟨p, rfl, hok.1⟩, h, List.all_eq_true.mp hok.2⟩, fun h => h.2.1⟩
    · rw [if_neg hok]
      apply iff_of_false (by simp)
      intro h
      obtain ⟨⟨q, hq, hlen⟩, -, hafter⟩ := h
      cases hq
      exact hok ⟨hlen, List.all_eq_true.mpr hafter⟩

/-- A written list is read back to the pairs of its entries, in order, exactly when every
entry is accepted. -/
theorem fromSettings_render_iff (decimal : Char → Option (Fin 10)) (items : List SentinelItem)
    (masterName : String) :
    fromSettings decimal ⟨render items, masterName⟩ =
        .ok ⟨(entries items).map SentinelEntry.address, masterName⟩ ↔
      ∀ e ∈ entries items, e.Accepted := by
  have hmap : ((entries items).map SentinelEntry.parts).mapM (sentinelAddress decimal) =
      (entries items).mapM fun e => sentinelAddress decimal e.parts := List.mapM_map
  have hiff := Sequences.mapM_eq_ok_map_iff (fun e => sentinelAddress decimal e.parts)
    SentinelEntry.address (entries items)
  simp only [sentinelAddress_parts_iff] at hiff
  rw [fromSettings, sentinelTuples_render, hmap, ← hiff]
  cases (entries items).mapM fun e => sentinelAddress decimal e.parts with
  | error e => simp [Except.map]
  | ok sentinels => simp [Except.map]

/-- An entry without a port is not given the default: its tuple has one part. -/
theorem fromSettings_localhost :
    ∃ e : SentinelEntry, e.port = none ∧ e.address = ("localhost", 26379) ∧
      render [.entry e] = "localhost" ∧
        fromSettings (fun _ => none) ⟨"localhost", "legallens-master"⟩ =
          .error .notEnoughValues := by
  have hplain : "localhost".toList.all
      (fun c => c ≠ ':' && c ≠ ',' && !Text.isSpace c) = true := rfl
  have hhost : ∀ c ∈ "localhost".toList, c ≠ ':' ∧ c ≠ ',' ∧ Text.isSpace c = false := by
    simpa [and_assoc] using List.all_eq_true.mp hplain
  exact ⟨⟨⟨[], by simp⟩, ⟨"localhost".toList, by simp, hhost⟩, none, ⟨[], by simp⟩⟩,
    rfl, rfl, rfl, rfl⟩

end SentinelClient

end LegalLens.Coordination
