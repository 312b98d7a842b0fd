import LegalLens.Ingestion.IngestDriver
import LegalLens.Library.FirstOccurrences
import LegalLens.Library.JsonDump
import LegalLens.Library.RaisingLoops

/-!
# Files that are no CUAD document

The parser takes the file apart as it goes, so a file that is no CUAD document raises where the
walk meets what it does not expect, after the contracts of the entries before. What is accepted
is described by relations between a decoded value and the typed document. The walk is wider than
the format in two places: an empty text or object passes for an empty list, and a text that
counts as false for a missing one.
-/

namespace LegalLens.Ingestion

open JsonText RaisingLoops

/-- What can be raised on the way. The first one stands for the errors of `json.load`. -/
inductive CuadError where
  | load
  | keyError (key : String)
  | typeError
  | attributeError
  | unicodeEncodeError
  | validationError
  deriving DecidableEq, Repr

/-! ## Values of Python -/

/-- `value[key]`. -/
def subscript (key : String) : Json → Except CuadError Json
  | .object ms =>
    match lookup (codePoints key.toList) ms with
    | some v => .ok v
    | none => .error (.keyError key)
  | _ => .error .typeError

/-- `value.get(key)`, where `none` is a missing member. -/
def getMember (key : String) : Json → Except CuadError (Option Json)
  | .object ms => .ok (lookup (codePoints key.toList) ms)
  | _ => .error .attributeError

/-- What a loop over the value goes through: elements, keys or characters. -/
def iterate : Json → Except CuadError (List Json)
  | .array vs => .ok vs
  | .object ms => .ok ((FirstOccurrences.firsts id (ms.map Prod.fst)).map .string)
  | .string points => .ok (points.map fun p => .string [p])
  | _ => .error .typeError

/-- The number that a literal is read as is zero. A float is zero up to half of the smallest
positive one. The words for numbers that are not finite have no digits. -/
def isZero (token : List Char) : Bool :=
  let mantissa := token.takeWhile fun c => c ≠ 'e' && c ≠ 'E'
  let fraction := (mantissa.dropWhile (· ≠ '.')).drop 1
  let exponent := token.drop (mantissa.length + 1)
  let power := (Nat.ofDigitChars 10 (exponent.filter Char.isDigit) 0 : ℤ) *
    (if exponent.head? = some '-' then -1 else 1) - fraction.length
  let n := Nat.ofDigitChars 10 (mantissa.filter Char.isDigit) 0
  token.any Char.isDigit && (n = 0 || (power < 0 && n * 2 ^ 1075 ≤ 10 ^ power.natAbs))

example : isZero "-0.0".toList = true ∧ isZero "2e-324".toList = true ∧
    isZero "3e-324".toList = false ∧ isZero "10".toList = false := by decide +kernel

/-- `bool(value)`. -/
def truthy : Json → Bool
  | .null => false
  | .bool b => b
  | .number token => !isZero token
  | .string points => !points.isEmpty
  | .array vs => !vs.isEmpty
  | .object ms => !ms.isEmpty

/-- `title.encode("utf-8")` succeeds for texts without surrogates. -/
def titleText : Json → Except CuadError String
  | .string points =>
    match textOf points with
    | some text => .ok (String.ofList text)
    | none => .error .unicodeEncodeError
  | _ => .error .attributeError

/-- The text that the pattern is searched in. A surrogate is like every other character that is
no quote and no tag character. -/
def questionText : Json → Except CuadError String
  | .string points => .ok (String.ofList (points.map fun p => (charOf p).getD '\ufffd'))
  | _ => .error .typeError

/-- `value or ""`, for a text. -/
def textOrEmpty (value : Option Json) : Except CuadError (List ℕ) :=
  match value.filter truthy with
  | none => .ok []
  | some (.string points) => .ok points
  | some _ => .error .attributeError

/-! ## The walk -/

section Walk

variable (sha1 : String → BitVec 160) (toInt : Json → Option ℤ)

/-- The field `answer_start: int | None`, with the integers that the validation makes of values
other than `None`. -/
def validateStart : Option Json → Except CuadError (Option ℤ)
  | none | some .null => .ok none
  | some v =>
    match toInt v with
    | some n => .ok (some n)
    | none => .error .validationError

def answerLoop (cid category : String) (clauses : List ParsedClause) (ans : Json) :
    Except CuadError (List ParsedClause) := do
  let points ← getMember "text" ans >>= textOrEmpty
  match textOf points with
  | none => .error .unicodeEncodeError -- No surrogate is a space, so the text is not blank.
  | some text =>
    let text := stripText (String.ofList text)
    if text = "" then return clauses
    else
      let start ← getMember "answer_start" ans >>= validateStart toInt
      return clauses ++ [⟨clauseId sha1 cid category text, cid, category, text, start⟩]

def qaLoop (cid : String) (clauses : List ParsedClause) (qa : Json) :
    Except CuadError (List ParsedClause) := do
  let question ← subscript "question" qa >>= questionText
  let answers ← getMember "answers" qa >>= fun v => iterate (v.getD (.array []))
  answers.foldlM (answerLoop sha1 toInt cid (normalizeCategory question)) clauses

def paragraphLoop (cid : String) (clauses : List ParsedClause) (paragraph : Json) :
    Except CuadError (List ParsedClause) := do
  let qas ← subscript "qas" paragraph >>= iterate
  qas.foldlM (qaLoop sha1 toInt cid) clauses

def entryBody (entry : Json) : Except CuadError ParsedContract := do
  let title ← subscript "title" entry >>= titleText
  let cid := contractId sha1 title
  let paragraphs ← subscript "paragraphs" entry >>= iterate
  let clauses ← paragraphs.foldlM (paragraphLoop sha1 toInt cid) []
  return ⟨cid, title, unique [] clauses⟩

/-- `parse_cuad` for a decoded file: the contracts that it yields and what it raises. -/
def parseCuadJson (raw : Json) : List ParsedContract × Option CuadError :=
  match subscript "data" raw >>= iterate with
  | .error e => ([], some e)
  | .ok entries => yields (entryBody sha1 toInt) entries

def parseCuadFile (limit : ℕ) (text : List Char) : List ParsedContract × Option CuadError :=
  match loadsInts IntText.maxStrDigits nonFinite limit text with
  | none => ([], some .load)
  | some raw => parseCuadJson sha1 toInt raw

end Walk

/-! ## The format -/

section Format

variable (toInt : Json → Option ℤ)

/-- A list: an array, or an empty text or object. -/
inductive Items : Json → List Json → Prop
  | array (vs : List Json) : Items (.array vs) vs
  | text : Items (.string []) []
  | object : Items (.object []) []

def HasMember (key : String) (v : Json) (object : Json) : Prop :=
  ∃ ms, object = .object ms ∧ lookup (codePoints key.toList) ms = some v

def LacksMember (key : String) (object : Json) : Prop :=
  ∃ ms, object = .object ms ∧ lookup (codePoints key.toList) ms = none

inductive ReadsText : Json → Option String → Prop
  | missing {ans : Json} (h : LacksMember "text" ans) : ReadsText ans none
  | falsy {ans v : Json} (h : HasMember "text" v ans) (hv : truthy v = false) : ReadsText ans none
  | text {ans : Json} {points : List ℕ} {text : List Char}
      (h : HasMember "text" (.string points) ans) (hpoints : textOf points = some text) :
      ReadsText ans (some (String.ofList text))

inductive ReadsStart : Json → Option ℤ → Prop
  | missing {ans : Json} (h : LacksMember "answer_start" ans) : ReadsStart ans none
  | null {ans : Json} (h : HasMember "answer_start" .null ans) : ReadsStart ans none
  | int {ans v : Json} {n : ℤ} (h : HasMember "answer_start" v ans) (hnull : v ≠ .null)
      (hn : toInt v = some n) : ReadsStart ans (some n)

/-- The start of a blank answer is not looked at. -/
structure ReadsAnswer (v : Json) (ans : CuadAnswer) : Prop where
  text : ReadsText v ans.text
  start : stripText (ans.text.getD "") ≠ "" → ReadsStart toInt v ans.answerStart

inductive ReadsQa : Json → CuadQa → Prop
  | plain {v : Json} {points : List ℕ} {question : String}
      (hquestion : HasMember "question" (.string points) v)
      (htext : questionText (.string points) = .ok question) (h : LacksMember "answers" v) :
      ReadsQa v ⟨question, none⟩
  | answered {v list : Json} {points : List ℕ} {question : String} {vs : List Json}
      {answers : List CuadAnswer} (hquestion : HasMember "question" (.string points) v)
      (htext : questionText (.string points) = .ok question) (h : HasMember "answers" list v)
      (hitems : Items list vs) (hanswers : List.Forall₂ (ReadsAnswer toInt) vs answers) :
      ReadsQa v ⟨question, some answers⟩

inductive ReadsParagraph : Json → CuadParagraph → Prop
  | mk {v list : Json} {vs : List Json} {qas : List CuadQa} (h : HasMember "qas" list v)
      (hitems : Items list vs) (hqas : List.Forall₂ (ReadsQa toInt) vs qas) :
      ReadsParagraph v ⟨qas⟩

inductive ReadsEntry : Json → CuadEntry → Prop
  | mk {v list : Json} {points : List ℕ} {title : List Char} {vs : List Json}
      {paragraphs : List CuadParagraph} (htitle : HasMember "title" (.string points) v)
      (htext : textOf points = some title) (h : HasMember "paragraphs" list v)
      (hitems : Items list vs) (hparagraphs : List.Forall₂ (ReadsParagraph toInt) vs paragraphs) :
      ReadsEntry v ⟨String.ofList title, paragraphs⟩

inductive ReadsDocument : Json → CuadDocument → Prop
  | mk {v list : Json} {vs : List Json} {entries : List CuadEntry} (h : HasMember "data" list v)
      (hitems : Items list vs) (hentries : List.Forall₂ (ReadsEntry toInt) vs entries) :
      ReadsDocument v ⟨entries⟩

end Format

/-! ## The walk reads the format -/

theorem subscript_eq_ok_iff {key : String} {v w : Json} :
    subscript key v = .ok w ↔ HasMember key w v := by
  constructor
  · intro h
    cases v with
    | object ms =>
      rw [subscript] at h
      split at h
      next w' hw =>
        cases h
        exact ⟨ms, rfl, hw⟩
      next => cases h
    | null | bool | number | string | array => cases h
  · rintro ⟨ms, rfl, hw⟩
    rw [subscript, hw]

theorem getMember_eq_ok_iff {key : String} {v : Json} {o : Option Json} :
    getMember key v = .ok o ↔
      (o = none ∧ LacksMember key v) ∨ ∃ w, o = some w ∧ HasMember key w v := by
  constructor
  · intro h
    cases v with
    | object ms =>
      cases h
      cases hw : lookup (codePoints key.toList) ms with
      | none => exact Or.inl ⟨rfl, ms, rfl, hw⟩
      | some w => exact Or.inr ⟨w, rfl, ms, rfl, hw⟩
    | null | bool | number | string | array => cases h
  · rintro (⟨rfl, ms, rfl, hw⟩ | ⟨w, rfl, ms, rfl, hw⟩) <;> rw [getMember, hw]

theorem getMember_bind_eq_ok_iff {γ : Type} {key : String} {v : Json}
    {f : Option Json → Except CuadError γ} {c : γ} :
    (getMember key v >>= f) = .ok c ↔
      (LacksMember key v ∧ f none = .ok c) ∨ ∃ w, HasMember key w v ∧ f (some w) = .ok c := by
  rw [bind_eq_ok_iff]
  constructor
  · rintro ⟨o, ho, hc⟩
    rcases getMember_eq_ok_iff.mp ho with ⟨rfl, hlacks⟩ | ⟨w, rfl, hhas⟩
    · exact Or.inl ⟨hlacks, hc⟩
    · exact Or.inr ⟨w, hhas, hc⟩
  · rintro (⟨hlacks, hc⟩ | ⟨w, hhas, hc⟩)
    · exact ⟨none, getMember_eq_ok_iff.mpr (Or.inl ⟨rfl, hlacks⟩), hc⟩
    · exact ⟨some w, getMember_eq_ok_iff.mpr (Or.inr ⟨w, rfl, hhas⟩), hc⟩

/-- Where a text stands for nothing, a loop gets through a value exactly if it is a list. -/
theorem exists_iterate_iff {β : Type*} {R : Json → β → Prop}
    (hR : ∀ points b, ¬R (.string points) b) {v : Json} {bs : List β} :
    (∃ vs, iterate v = .ok vs ∧ List.Forall₂ R vs bs) ↔
      ∃ vs, Items v vs ∧ List.Forall₂ R vs bs := by
  -- The items of texts and objects are texts.
  have hnil : ∀ keys : List (List ℕ), List.Forall₂ R (keys.map .string) bs → keys = [] := by
    intro keys h
    cases keys with
    | nil => rfl
    | cons key keys =>
      cases h with
      | cons hkey _ => exact absurd hkey (hR _ _)
  constructor
  · rintro ⟨vs, hvs, hbs⟩
    cases v with
    | array ws =>
      cases hvs
      exact ⟨vs, .array vs, hbs⟩
    | object ms =>
      cases hvs
      have hkeys := hnil _ hbs
      cases ms with
      | nil => exact ⟨[], .object, hbs⟩
      | cons m ms => cases hkeys
    | string points =>
      cases hvs
      have hkeys : (points.map fun p => [p]) = [] := hnil _ (by rwa [List.map_map])
      cases points with
      | nil => exact ⟨[], .text, hbs⟩
      | cons p points => cases hkeys
    | null | bool | number => cases hvs
  · rintro ⟨vs, hitems, hbs⟩
    cases hitems with
    | array => exact ⟨vs, rfl, hbs⟩
    | text | object => exact ⟨[], rfl, hbs⟩

theorem not_hasMember_string {key : String} {w : Json} {points : List ℕ} :
    ¬HasMember key w (.string points) := by
  rintro ⟨ms, heq, -⟩
  cases heq

theorem not_lacksMember_string {key : String} {points : List ℕ} :
    ¬LacksMember key (.string points) := by
  rintro ⟨ms, heq, -⟩
  cases heq

theorem textOrEmpty_falsy {v : Json} (h : truthy v = false) : textOrEmpty (some v) = .ok [] := by
  rw [textOrEmpty, Option.filter_some, h]
  rfl

theorem textOrEmpty_string (points : List ℕ) :
    textOrEmpty (some (.string points)) = .ok points := by
  cases points with
  | nil => rfl
  | cons p points => rfl

theorem exists_text_iff {v : Json} {text : List Char} :
    (∃ points, (getMember "text" v >>= textOrEmpty) = .ok points ∧ textOf points = some text) ↔
      ∃ t, ReadsText v t ∧ t.getD "" = String.ofList text := by
  constructor
  · rintro ⟨points, hpoints, htext⟩
    rcases getMember_bind_eq_ok_iff.mp hpoints with ⟨hlacks, hc⟩ | ⟨w, hhas, hc⟩
    · cases hc
      cases htext
      exact ⟨none, .missing hlacks, rfl⟩
    · cases htruthy : truthy w with
      | false =>
        rw [textOrEmpty_falsy htruthy] at hc
        cases hc
        cases htext
        exact ⟨none, .falsy hhas htruthy, rfl⟩
      | true =>
        rw [textOrEmpty, Option.filter_some, htruthy] at hc
        cases w with
        | string =>
          cases hc
          exact ⟨some (String.ofList text), .text hhas htext, rfl⟩
        | null | bool | number | array | object => cases hc
  · rintro ⟨t, ht, htext⟩
    have hempty : "" = String.ofList text → textOf [] = some text := by
      intro h
      have hnil : text = [] := by simpa using (congrArg String.toList h).symm
      rw [hnil]
      rfl
    cases ht with
    | missing h => exact ⟨[], getMember_bind_eq_ok_iff.mpr (Or.inl ⟨h, rfl⟩), hempty htext⟩
    | falsy h hw =>
      exact ⟨[], getMember_bind_eq_ok_iff.mpr (Or.inr ⟨_, h, textOrEmpty_falsy hw⟩), hempty htext⟩
    | text h hpoints =>
      obtain rfl := String.ofList_injective htext
      exact ⟨_, getMember_bind_eq_ok_iff.mpr (Or.inr ⟨_, h, textOrEmpty_string _⟩), hpoints⟩

section Reading

variable {sha1 : String → BitVec 160} {toInt : Json → Option ℤ}

theorem validateStart_eq_ok_iff {v : Json} {start : Option ℤ} :
    (getMember "answer_start" v >>= validateStart toInt) = .ok start ↔
      ReadsStart toInt v start := by
  rw [getMember_bind_eq_ok_iff]
  constructor
  · rintro (⟨hlacks, hc⟩ | ⟨w, hhas, hc⟩)
    · cases hc
      exact .missing hlacks
    · unfold validateStart at hc
      split at hc
      next h => cases h
      next h =>
        cases h
        cases hc
        exact .null hhas
      next w' hnull h =>
        cases h
        split at hc
        next n hn =>
          cases hc
          exact .int hhas hnull hn
        next => cases hc
  · intro h
    cases h with
    | missing h => exact Or.inl ⟨h, rfl⟩
    | null h => exact Or.inr ⟨.null, h, rfl⟩
    | @int w n h hnull hn =>
      refine Or.inr ⟨w, h, ?_⟩
      cases w with
      | null => exact absurd rfl hnull
      | bool | number | string | array | object => simp only [validateStart, hn]

def answerClause (sha1 : String → BitVec 160) (cid category : String) (ans : CuadAnswer) :
    Option ParsedClause :=
  let text := stripText (ans.text.getD "")
  if text = "" then none
  else some ⟨clauseId sha1 cid category text, cid, category, text, ans.answerStart⟩

theorem qaClauses_eq (cid : String) (qa : CuadQa) :
    qaClauses sha1 cid qa = (qa.answers.getD []).flatMap fun ans =>
      (answerClause sha1 cid (normalizeCategory qa.question) ans).toList :=
  List.filterMap_eq_flatMap_toList _ _

theorem answerLoop_eq_ok_iff {cid category : String} (clauses : List ParsedClause) (v : Json)
    (out : List ParsedClause) :
    answerLoop sha1 toInt cid category clauses v = .ok out ↔
      ∃ ans, ReadsAnswer toInt v ans ∧
        out = clauses ++ (answerClause sha1 cid category ans).toList := by
  rw [answerLoop, bind_eq_ok_iff]
  constructor
  · rintro ⟨points, hpoints, hout⟩
    split at hout
    next => cases hout
    next text htext =>
      obtain ⟨t, ht, heq⟩ := exists_text_iff.mp ⟨points, hpoints, htext⟩
      dsimp only at hout
      split_ifs at hout with hblank
      · cases hout
        rw [← heq] at hblank
        exact ⟨⟨t, none⟩, ⟨ht, fun hne => absurd hblank hne⟩, by simp [answerClause, hblank]⟩
      · obtain ⟨start, hstart, hout⟩ := bind_eq_ok_iff.mp hout
        cases hout
        rw [← heq] at hblank ⊢
        exact ⟨⟨t, start⟩, ⟨ht, fun _ => validateStart_eq_ok_iff.mp hstart⟩,
          by simp [answerClause, hblank]⟩
  · rintro ⟨⟨t, start⟩, ⟨ht, hstart⟩, rfl⟩
    obtain ⟨points, hpoints, htext⟩ :=
      exists_text_iff.mpr ⟨t, ht, (String.ofList_toList (s := t.getD "")).symm⟩
    refine ⟨points, hpoints, ?_⟩
    simp only [htext, String.ofList_toList]
    by_cases hblank : stripText (t.getD "") = ""
    · simp [answerClause, hblank, pure, Except.pure]
    · rw [if_neg hblank, bind_eq_ok_iff]
      exact ⟨start, validateStart_eq_ok_iff.mpr (hstart hblank), by
        simp [answerClause, hblank, pure, Except.pure]⟩

theorem not_readsAnswer_string (points : List ℕ) (ans : CuadAnswer) :
    ¬ReadsAnswer toInt (.string points) ans := by
  rintro ⟨htext, -⟩
  generalize ans.text = t at htext
  cases htext with
  | missing h => exact not_lacksMember_string h
  | falsy h | text h => exact not_hasMember_string h

theorem questionText_eq_ok_iff {v : Json} {question : String} :
    (subscript "question" v >>= questionText) = .ok question ↔
      ∃ points, HasMember "question" (.string points) v ∧
        questionText (.string points) = .ok question := by
  rw [bind_eq_ok_iff]
  constructor
  · rintro ⟨w, hw, hquestion⟩
    cases w with
    | string points => exact ⟨points, subscript_eq_ok_iff.mp hw, hquestion⟩
    | null | bool | number | array | object => cases hquestion
  · rintro ⟨points, h, hquestion⟩
    exact ⟨_, subscript_eq_ok_iff.mpr h, hquestion⟩

theorem qaLoop_eq_ok_iff {cid : String} (clauses : List ParsedClause) (v : Json)
    (out : List ParsedClause) :
    qaLoop sha1 toInt cid clauses v = .ok out ↔
      ∃ qa, ReadsQa toInt v qa ∧ out = clauses ++ qaClauses sha1 cid qa := by
  rw [qaLoop, bind_eq_ok_iff]
  constructor
  · rintro ⟨question, hquestion, hrest⟩
    obtain ⟨points, hpoints, htext⟩ := questionText_eq_ok_iff.mp hquestion
    obtain ⟨vs, hvs, hloop⟩ := bind_eq_ok_iff.mp hrest
    obtain ⟨answers, hanswers, rfl⟩ :=
      (foldlM_eq_ok_iff answerLoop_eq_ok_iff clauses vs out).mp hloop
    rcases getMember_bind_eq_ok_iff.mp hvs with ⟨hlacks, hiterate⟩ | ⟨list, hhas, hiterate⟩
    · cases hiterate
      cases hanswers
      exact ⟨⟨question, none⟩, .plain hpoints htext hlacks, by simp [qaClauses_eq]⟩
    · obtain ⟨vs, hitems, hanswers⟩ :=
        (exists_iterate_iff not_readsAnswer_string).mp ⟨vs, hiterate, hanswers⟩
      exact ⟨⟨question, some answers⟩, .answered hpoints htext hhas hitems hanswers,
        by simp [qaClauses_eq]⟩
  · rintro ⟨qa, hqa, rfl⟩
    cases hqa with
    | plain hpoints htext hlacks =>
      refine ⟨_, questionText_eq_ok_iff.mpr ⟨_, hpoints, htext⟩, bind_eq_ok_iff.mpr ⟨[], ?_, ?_⟩⟩
      · exact getMember_bind_eq_ok_iff.mpr (Or.inl ⟨hlacks, rfl⟩)
      · simp [qaClauses_eq, pure, Except.pure]
    | answered hpoints htext hhas hitems hanswers =>
      obtain ⟨vs, hiterate, hanswers⟩ :=
        (exists_iterate_iff not_readsAnswer_string).mpr ⟨_, hitems, hanswers⟩
      refine ⟨_, questionText_eq_ok_iff.mpr ⟨_, hpoints, htext⟩, bind_eq_ok_iff.mpr ⟨vs, ?_, ?_⟩⟩
      · exact getMember_bind_eq_ok_iff.mpr (Or.inr ⟨_, hhas, hiterate⟩)
      · exact (foldlM_eq_ok_iff answerLoop_eq_ok_iff clauses vs _).mpr
          ⟨_, hanswers, by simp [qaClauses_eq]⟩

theorem not_readsQa_string (points : List ℕ) (qa : CuadQa) :
    ¬ReadsQa toInt (.string points) qa := by
  intro h
  cases h with
  | plain h | answered h => exact not_hasMember_string h

theorem loop_member_iff {β γ : Type} {key : String} {v : Json}
    {step : List γ → Json → Except CuadError (List γ)} {R : Json → β → Prop} {f : β → List γ}
    (hR : ∀ points b, ¬R (.string points) b)
    (hstep : ∀ acc v out, step acc v = .ok out ↔ ∃ b, R v b ∧ out = acc ++ f b)
    {acc out : List γ} :
    ((subscript key v >>= iterate) >>= fun vs => vs.foldlM step acc) = .ok out ↔
      ∃ list vs bs, HasMember key list v ∧ Items list vs ∧ List.Forall₂ R vs bs ∧
        out = acc ++ bs.flatMap f := by
  rw [bind_eq_ok_iff]
  constructor
  · rintro ⟨vs, hvs, hloop⟩
    obtain ⟨list, hlist, hiterate⟩ := bind_eq_ok_iff.mp hvs
    obtain ⟨bs, hbs, rfl⟩ := (foldlM_eq_ok_iff hstep acc vs out).mp hloop
    obtain ⟨vs, hitems, hbs⟩ := (exists_iterate_iff hR).mp ⟨vs, hiterate, hbs⟩
    exact ⟨list, vs, bs, subscript_eq_ok_iff.mp hlist, hitems, hbs, rfl⟩
  · rintro ⟨list, vs, bs, hlist, hitems, hbs, rfl⟩
    obtain ⟨vs, hiterate, hbs⟩ := (exists_iterate_iff hR).mpr ⟨vs, hitems, hbs⟩
    exact ⟨vs, bind_eq_ok_iff.mpr ⟨list, subscript_eq_ok_iff.mpr hlist, hiterate⟩,
      (foldlM_eq_ok_iff hstep acc vs _).mpr ⟨bs, hbs, rfl⟩⟩

theorem paragraphLoop_eq_ok_iff {cid : String} (clauses : List ParsedClause) (v : Json)
    (out : List ParsedClause) :
    paragraphLoop sha1 toInt cid clauses v = .ok out ↔
      ∃ paragraph, ReadsParagraph toInt v paragraph ∧
        out = clauses ++ paragraph.qas.flatMap (qaClauses sha1 cid) := by
  have hloop : paragraphLoop sha1 toInt cid clauses v = .ok out ↔
      ∃ list vs qas, HasMember "qas" list v ∧ Items list vs ∧
        List.Forall₂ (ReadsQa toInt) vs qas ∧ out = clauses ++ qas.flatMap (qaClauses sha1 cid) :=
    loop_member_iff not_readsQa_string qaLoop_eq_ok_iff
  constructor
  · intro h
    obtain ⟨list, vs, qas, hlist, hitems, hqas, rfl⟩ := hloop.mp h
    exact ⟨⟨qas⟩, .mk hlist hitems hqas, rfl⟩
  · rintro ⟨paragraph, ⟨hlist, hitems, hqas⟩, rfl⟩
    exact hloop.mpr ⟨_, _, _, hlist, hitems, hqas, rfl⟩

theorem not_readsParagraph_string (points : List ℕ) (paragraph : CuadParagraph) :
    ¬ReadsParagraph toInt (.string points) paragraph := by
  rintro ⟨h, -, -⟩
  exact not_hasMember_string h

theorem titleText_eq_ok_iff {v : Json} {title : String} :
    (subscript "title" v >>= titleText) = .ok title ↔
      ∃ points text, HasMember "title" (.string points) v ∧ textOf points = some text ∧
        title = String.ofList text := by
  rw [bind_eq_ok_iff]
  constructor
  · rintro ⟨w, hw, htitle⟩
    cases w with
    | string points =>
      rw [titleText] at htitle
      split at htitle
      next text htext =>
        cases htitle
        exact ⟨points, text, subscript_eq_ok_iff.mp hw, htext, rfl⟩
      next => cases htitle
    | null | bool | number | array | object => cases htitle
  · rintro ⟨points, text, h, htext, rfl⟩
    refine ⟨_, subscript_eq_ok_iff.mpr h, ?_⟩
    rw [titleText, htext]

/-- The walk through one entry raises, or parses what the entry stands for. -/
theorem entryBody_eq_ok_iff (v : Json) (parsed : ParsedContract) :
    entryBody sha1 toInt v = .ok parsed ↔
      ∃ entry, ReadsEntry toInt v entry ∧ parsed = parseEntry sha1 entry := by
  have hloop : ∀ {cid : String} {out : List ParsedClause},
      ((subscript "paragraphs" v >>= iterate) >>=
          fun vs => vs.foldlM (paragraphLoop sha1 toInt cid) []) = .ok out ↔
        ∃ list vs paragraphs, HasMember "paragraphs" list v ∧ Items list vs ∧
          List.Forall₂ (ReadsParagraph toInt) vs paragraphs ∧
          out = [] ++ paragraphs.flatMap fun paragraph =>
            paragraph.qas.flatMap (qaClauses sha1 cid) :=
    loop_member_iff not_readsParagraph_string paragraphLoop_eq_ok_iff
  rw [entryBody, bind_eq_ok_iff]
  constructor
  · rintro ⟨title, htitle, hrest⟩
    obtain ⟨points, text, hpoints, htext, rfl⟩ := titleText_eq_ok_iff.mp htitle
    obtain ⟨vs, hvs, hrest⟩ := bind_eq_ok_iff.mp hrest
    obtain ⟨clauses, hclauses, hparsed⟩ := bind_eq_ok_iff.mp hrest
    cases hparsed
    obtain ⟨list, vs, paragraphs, hlist, hitems, hparagraphs, rfl⟩ :=
      hloop.mp (bind_eq_ok_iff.mpr ⟨vs, hvs, hclauses⟩)
    exact ⟨⟨String.ofList text, paragraphs⟩, .mk hpoints htext hlist hitems hparagraphs, rfl⟩
  · rintro ⟨entry, ⟨hpoints, htext, hlist, hitems, hparagraphs⟩, rfl⟩
    refine ⟨_, titleText_eq_ok_iff.mpr ⟨_, _, hpoints, htext, rfl⟩, ?_⟩
    obtain ⟨vs, hvs, hclauses⟩ :=
      bind_eq_ok_iff.mp (hloop.mpr ⟨_, _, _, hlist, hitems, hparagraphs, rfl⟩)
    exact bind_eq_ok_iff.mpr ⟨vs, hvs, bind_eq_ok_iff.mpr ⟨_, hclauses, rfl⟩⟩

theorem not_readsEntry_string (points : List ℕ) (entry : CuadEntry) :
    ¬ReadsEntry toInt (.string points) entry := by
  rintro ⟨h, -, -, -⟩
  exact not_hasMember_string h

/-- The items that the parser would go through. -/
def fileItems (limit : ℕ) (text : List Char) : List Json :=
  match loadsInts IntText.maxStrDigits nonFinite limit text with
  | none => []
  | some raw =>
    match subscript "data" raw >>= iterate with
    | .error _ => []
    | .ok entries => entries

/-- The entries of the file in front of the first item that is no entry. -/
def Front (toInt : Json → Option ℤ) (limit : ℕ) (text : List Char) (front : CuadDocument) : Prop :=
  ∃ done rest, fileItems limit text = done ++ rest ∧
    List.Forall₂ (ReadsEntry toInt) done front.data ∧
    ∀ bad ∈ rest.head?, ∀ entry, ¬ReadsEntry toInt bad entry

def IsDocument (toInt : Json → Option ℤ) (limit : ℕ) (text : List Char) (d : CuadDocument) : Prop :=
  ∃ raw, loadsInts IntText.maxStrDigits nonFinite limit text = some raw ∧ ReadsDocument toInt raw d

theorem parseCuadFile_of_isDocument {limit : ℕ} {text : List Char} {d : CuadDocument}
    (h : IsDocument toInt limit text d) :
    parseCuadFile sha1 toInt limit text = (parseCuad sha1 d, none) := by
  obtain ⟨raw, hload, hlist, hitems, hentries⟩ := h
  obtain ⟨vs, hiterate, hentries⟩ :=
    (exists_iterate_iff not_readsEntry_string).mpr ⟨_, hitems, hentries⟩
  have hdata : (subscript "data" raw >>= iterate) = .ok vs :=
    bind_eq_ok_iff.mpr ⟨_, subscript_eq_ok_iff.mpr hlist, hiterate⟩
  simp only [parseCuadFile, hload, parseCuadJson, hdata]
  exact yields_of_forall₂ entryBody_eq_ok_iff hentries

/-- The parser yields the contracts of the entries in front of the first item that is no entry,
and it raises then exactly if the file is no document. -/
theorem parseCuadFile_front (sha1 : String → BitVec 160) (toInt : Json → Option ℤ) (limit : ℕ)
    (text : List Char) :
    (∀ d, IsDocument toInt limit text d →
      parseCuadFile sha1 toInt limit text = (parseCuad sha1 d, none)) ∧
    ∃ front, Front toInt limit text front ∧
      (parseCuadFile sha1 toInt limit text).1 = parseCuad sha1 front ∧
      ((parseCuadFile sha1 toInt limit text).2 = none → IsDocument toInt limit text front) := by
  refine ⟨fun d hd => parseCuadFile_of_isDocument hd, ?_⟩
  cases hload : loadsInts IntText.maxStrDigits nonFinite limit text with
  | none =>
    have hfile : parseCuadFile sha1 toInt limit text = ([], some .load) := by
      rw [parseCuadFile, hload]
    have hitems : fileItems limit text = [] := by
      rw [fileItems, hload]
    rw [hfile]
    exact ⟨⟨[]⟩, ⟨[], [], hitems, .nil, by simp⟩, rfl, fun h => (by cases h)⟩
  | some raw =>
    cases hdata : subscript "data" raw >>= iterate with
    | error e =>
      have hfile : parseCuadFile sha1 toInt limit text = ([], some e) := by
        simp only [parseCuadFile, hload, parseCuadJson, hdata]
      have hitems : fileItems limit text = [] := by
        simp only [fileItems, hload, hdata]
      rw [hfile]
      exact ⟨⟨[]⟩, ⟨[], [], hitems, .nil, by simp⟩, rfl, fun h => (by cases h)⟩
    | ok vs =>
      have hfile : parseCuadFile sha1 toInt limit text = yields (entryBody sha1 toInt) vs := by
        simp only [parseCuadFile, hload, parseCuadJson, hdata]
      have hitems : fileItems limit text = vs := by
        simp only [fileItems, hload, hdata]
      have hbody : ∀ v parsed, entryBody sha1 toInt v = .ok parsed ↔
          ∃ entry, ReadsEntry toInt v entry ∧ parsed = parseEntry sha1 entry :=
        entryBody_eq_ok_iff
      obtain ⟨done, rest, entries, hvs, hentries, hyields, hend⟩ := yields_spec hbody vs
      rw [hfile]
      generalize (yields (entryBody sha1 toInt) vs).2 = error at hend
      refine ⟨⟨entries⟩, ⟨done, rest, hitems.trans hvs, hentries, ?_⟩, hyields, ?_⟩
      · intro bad hbad entry hread
        cases hend with
        | finished => cases hbad
        | raised h =>
          cases hbad
          rw [(entryBody_eq_ok_iff bad _).mpr ⟨entry, hread, rfl⟩] at h
          cases h
      · intro hnone
        cases hend with
        | raised => cases hnone
        | finished =>
          rw [List.append_nil] at hvs
          subst hvs
          obtain ⟨list, hlist, hiterate⟩ := bind_eq_ok_iff.mp hdata
          obtain ⟨ws, hread, hentries⟩ :=
            (exists_iterate_iff not_readsEntry_string).mp ⟨vs, hiterate, hentries⟩
          exact ⟨raw, hload, .mk (subscript_eq_ok_iff.mp hlist) hread hentries⟩

end Reading

/-! ## The driver on a file -/

namespace IngestDriver

open Orchestration Coordination

inductive FileOutcome where
  | ended (outcome : Outcome)
  /-- An error of the parser, which `main` does not catch. -/
  | parser (error : CuadError)
  deriving DecidableEq, Repr

/-- What happens when the generator has yielded everything. -/
def FileOutcome.atEnd : Option CuadError → FileOutcome
  | none => .ended .finished
  | some e => .parser e

section Driver

variable {ε : Type*} (hash : String → ℕ) (dump : IngestTask → ε) (registry : WorkerRegistry)
  (limit : Option ℤ)

/-- The loop over the generator, which runs up to its next contract before the limit is looked
at. -/
def enqueueFile (error : Option CuadError) :
    List ParsedContract → Progress ε → FileOutcome × Progress ε
  | [], s => (.atEnd error, s)
  | parsed :: rest, s =>
    if limitReached limit s.enqueued then (.ended .finished, s)
    else
      match TaskDispatcher.dispatch hash dump registry (ingestTask parsed) s.queues with
      | .error (.noWorkersAvailable _) =>
        (.ended .aborted, s.print "[red]ring went empty mid-dispatch — aborting[/red]")
      | .error (.lookup e) => (.ended (.raised e), s)
      | .ok (wid, queues) => enqueueFile error rest (s.count wid queues)

/-- `main` on the text of a file. -/
def mainFile (sha1 : String → BitVec 160) (toInt : Json → Option ℤ) (depth : ℕ) (ping : Bool)
    (scan : List String) (text : List Char) (queues : Queues ε) : FileOutcome × Progress ε :=
  if ping = false then
    (.ended (.systemExit "Redis Sentinel unreachable — is docker compose up?"), ⟨queues, 0, []⟩)
  else
    let (registry, workers) := WorkerRegistry.init.refreshRing hash scan
    if workers = [] then
      (.ended (.systemExit ("No live workers found. Start at least one with " ++
        "`python scripts/ingest_worker.py` and re-run.")), ⟨queues, 0, []⟩)
    else
      let (contracts, error) := parseCuadFile sha1 toInt depth text
      match enqueueFile hash dump registry limit error contracts ⟨queues, 0, []⟩ with
      | (.ended .finished, s) =>
        (.ended .finished, s.print ("[green]enqueued " ++ toString s.enqueued ++
          " contracts across " ++ toString workers.length ++ " workers[/green]"))
      | (outcome, s) => (outcome, s)

end Driver

/-- The outcome on a file, given what happens for the contracts that its parser yields. The
error of the parser is met exactly if all of them are enqueued. -/
def outcomeWith (error : Option CuadError) (yielded enqueued : ℕ) (outcome : Outcome) :
    FileOutcome :=
  if outcome = .finished ∧ enqueued = yielded then .atEnd error else .ended outcome

variable {ε : Type*}

theorem enqueueFile_eq (hash : String → ℕ) (dump : IngestTask → ε) (registry : WorkerRegistry)
    (limit : Option ℤ) (error : Option CuadError) (contracts : List ParsedContract)
    (s : Progress ε) :
    enqueueFile hash dump registry limit error contracts s =
      (outcomeWith error (s.enqueued + contracts.length)
        (enqueue hash dump registry limit contracts s).2.enqueued
        (enqueue hash dump registry limit contracts s).1,
      (enqueue hash dump registry limit contracts s).2) := by
  induction contracts generalizing s with
  | nil => simp [enqueueFile, enqueue, outcomeWith]
  | cons parsed rest ih =>
    rw [enqueueFile, enqueue]
    split_ifs with hlimit
    · simp [outcomeWith]
    · cases hdispatch : TaskDispatcher.dispatch hash dump registry (ingestTask parsed) s.queues with
      | error e =>
        cases e with
        | noWorkersAvailable | lookup => simp [outcomeWith]
      | ok r =>
        dsimp only
        rw [ih, Progress.enqueued_count, List.length_cons, Nat.add_right_comm, Nat.add_assoc]

theorem mainFile_of_workers (hash : String → ℕ) (dump : IngestTask → ε) (limit : Option ℤ)
    (sha1 : String → BitVec 160) (toInt : Json → Option ℤ) (depth : ℕ) {scan : List String}
    (hscan : WorkerRegistry.listWorkers scan ≠ []) (text : List Char) (queues : Queues ε) :
    let registry := (WorkerRegistry.init.refreshRing hash scan).1
    let parsed := parseCuadFile sha1 toInt depth text
    let looped := enqueueFile hash dump registry limit parsed.2 parsed.1 ⟨queues, 0, []⟩
    let result := mainFile hash dump limit sha1 toInt depth true scan text queues
    result.1 = looped.1 ∧ result.2.enqueued = looped.2.enqueued ∧
      result.2.queues = looped.2.queues := by
  intro registry parsed looped result
  have hresult : result = match looped with
      | (.ended .finished, s) =>
        (.ended .finished, s.print ("[green]enqueued " ++ toString s.enqueued ++
          " contracts across " ++ toString (WorkerRegistry.listWorkers scan).length ++
          " workers[/green]"))
      | (outcome, s) => (outcome, s) := by
    simp only [result, mainFile, WorkerRegistry.refreshRing, Bool.true_eq_false, if_false]
    exact if_neg hscan
  rw [hresult]
  obtain ⟨outcome, s⟩ := looped
  cases outcome with
  | ended outcome => cases outcome <;> exact ⟨rfl, rfl, rfl⟩
  | parser e => exact ⟨rfl, rfl, rfl⟩

/-- On a file the driver enqueues what it enqueues for the document of the entries in front of
the first item that is no entry. The error of the parser ends it exactly if the file is no
document and all these entries are enqueued. -/
theorem mainFile_front (hash : String → ℕ) (dump : IngestTask → ε) (limit : Option ℤ)
    (sha1 : String → BitVec 160) (toInt : Json → Option ℤ) (depth : ℕ) (ping : Bool)
    (scan : List String) (text : List Char) (queues : Queues ε) :
    ∃ front, Front toInt depth text front ∧
      let onFile := mainFile hash dump limit sha1 toInt depth ping scan text queues
      let onFront := main hash dump limit sha1 ping scan front queues
      onFile.2.queues = onFront.2.queues ∧ onFile.2.enqueued = onFront.2.enqueued ∧
        (((∀ d, ¬IsDocument toInt depth text d) ∧ onFront.1 = .finished ∧
            onFront.2.enqueued = front.data.length ∧ ∃ e, onFile.1 = .parser e) ∨
          (¬((∀ d, ¬IsDocument toInt depth text d) ∧ onFront.1 = .finished ∧
            onFront.2.enqueued = front.data.length) ∧ onFile.1 = .ended onFront.1)) := by
  obtain ⟨hdocument, front, hfront, hcontracts, hnone⟩ :=
    parseCuadFile_front sha1 toInt depth text
  refine ⟨front, hfront, ?_⟩
  intro onFile onFront
  by_cases hanswer : ping = true ∧ WorkerRegistry.listWorkers scan ≠ []
  · obtain ⟨rfl, hworkers⟩ := hanswer
    obtain ⟨hfile, hfileEnqueued, hfileQueues⟩ :=
      mainFile_of_workers hash dump limit sha1 toInt depth hworkers text queues
    obtain ⟨hmain, hmainEnqueued, hmainQueues⟩ :=
      main_of_workers hash dump limit sha1 hworkers front queues
    rw [enqueueFile_eq, hcontracts, Nat.zero_add] at hfile hfileEnqueued hfileQueues
    have hlength : (parseCuad sha1 front).length = front.data.length := List.length_map ..
    refine ⟨hfileQueues.trans hmainQueues.symm, hfileEnqueued.trans hmainEnqueued.symm, ?_⟩
    rw [← hmain, ← hmainEnqueued, hlength] at hfile
    change onFile.1 = outcomeWith _ _ onFront.2.enqueued onFront.1 at hfile
    rw [hfile]
    by_cases hall : onFront.1 = .finished ∧ onFront.2.enqueued = front.data.length
    · rw [outcomeWith, if_pos hall]
      cases herror : (parseCuadFile sha1 toInt depth text).2 with
      | none =>
        right
        refine ⟨fun h => h.1 front (hnone herror), ?_⟩
        rw [hall.1]
        rfl
      | some e =>
        left
        refine ⟨fun d hd => ?_, hall.1, hall.2, e, rfl⟩
        rw [hdocument d hd] at herror
        cases herror
    · rw [outcomeWith, if_neg hall]
      exact Or.inr ⟨fun h => hall h.2, rfl⟩
  · -- Nothing has been parsed yet.
    have hexit : ∃ message, onFile = (.ended (.systemExit message), ⟨queues, 0, []⟩) ∧
        onFront = (.systemExit message, ⟨queues, 0, []⟩) := by
      cases ping with
      | false => exact ⟨_, rfl, rfl⟩
      | true =>
        have hnil : WorkerRegistry.listWorkers scan = [] := by
          simpa using hanswer
        simp [onFile, onFront, mainFile, main, WorkerRegistry.refreshRing, hnil]
    obtain ⟨message, hfile, hmain⟩ := hexit
    rw [hfile, hmain]
    exact ⟨rfl, rfl, Or.inr ⟨fun h => (by cases h.2.1), rfl⟩⟩

end IngestDriver

end LegalLens.Ingestion
