import LegalLens.Library.Sequences
import LegalLens.Library.Text

/-!
# The CUAD parser

A CUAD document is walked entry by entry; every answer span becomes a clause whose id is a
hash of contract, category and text. SHA-1 is a parameter. A missing text or one that is
`null` is `none`, and so is a missing list of answers.
-/

namespace LegalLens.Ingestion

structure CuadAnswer where
  text : Option String
  answerStart : Option ℤ

structure CuadQa where
  question : String
  answers : Option (List CuadAnswer)

structure CuadParagraph where
  qas : List CuadQa

structure CuadEntry where
  title : String
  paragraphs : List CuadParagraph

structure CuadDocument where
  data : List CuadEntry

structure ParsedClause where
  clauseId : String
  contractId : String
  category : String
  text : String
  answerStart : Option ℤ
  deriving DecidableEq, Repr

structure ParsedContract where
  contractId : String
  filename : String
  clauses : List ParsedClause
  deriving DecidableEq, Repr

/-- The class `[a-z0-9]`. -/
def isTagChar (c : Char) : Bool := c.isLower || c.isDigit

/-- Match a lower-case pattern in front of a text, ignoring the case of the text. -/
def matchIgnoringCase : List Char → List Char → Option (List Char)
  | [], text => some text
  | _ :: _, [] => none
  | p :: ps, c :: cs => if c.toLower = p then matchIgnoringCase ps cs else none

/-- The group `([^"]+)` with its closing quote. -/
def quotedGroup (text : List Char) : Option (List Char) :=
  let group := text.takeWhile (· ≠ '"')
  if group ≠ [] ∧ group.length < text.length then some group else none

/-- `_CATEGORY_RE.search`: the group of the first match. -/
def searchCategory : List Char → Option (List Char)
  | [] => none
  | c :: cs =>
    match (matchIgnoringCase "related to \"".toList (c :: cs)).bind quotedGroup with
    | some group => some group
    | none => searchCategory cs

/-- The raw label of a question: the quoted name, or the first 60 characters. -/
def rawLabel (question : String) : List Char :=
  (searchCategory question.toList).getD (question.toList.take 60)

def normalizeCategory (question : String) : String :=
  String.ofList (Text.strip (· = '_')
    (Text.replaceRuns isTagChar '_' false (Text.lower (rawLabel question))))

/-- `text.strip()`. -/
def stripText (text : String) : String := String.ofList (Text.strip Text.isSpace text.toList)

section Hashing

variable (sha1 : String → BitVec 160)

def contractId (title : String) : String :=
  String.ofList ((Text.hexdigest (sha1 title)).take 16)

def clauseKey (contractId category text : String) : String :=
  contractId ++ "|" ++ category ++ "|" ++ text

def clauseDigest (key : String) : String := String.ofList ((Text.hexdigest (sha1 key)).take 10)

def clauseId (contractId category text : String) : String :=
  contractId ++ "-" ++ clauseDigest sha1 (clauseKey contractId category text)

/-- The clauses of one question: its answers with a text that is not blank. -/
def qaClauses (cid : String) (qa : CuadQa) : List ParsedClause :=
  let category := normalizeCategory qa.question
  (qa.answers.getD []).filterMap fun ans =>
    let text := stripText (ans.text.getD "")
    if text = "" then none
    else some ⟨clauseId sha1 cid category text, cid, category, text, ans.answerStart⟩

/-- All clauses of an entry, in order, before deduplication. -/
def entryClauses (entry : CuadEntry) : List ParsedClause :=
  entry.paragraphs.flatMap fun paragraph =>
    paragraph.qas.flatMap (qaClauses sha1 (contractId sha1 entry.title))

def unique (seen : List String) : List ParsedClause → List ParsedClause
  | [] => []
  | c :: cs =>
    if c.clauseId ∈ seen then unique seen cs else c :: unique (c.clauseId :: seen) cs

def parseEntry (entry : CuadEntry) : ParsedContract :=
  ⟨contractId sha1 entry.title, entry.title, unique [] (entryClauses sha1 entry)⟩

def parseCuad (raw : CuadDocument) : List ParsedContract := raw.data.map (parseEntry sha1)

/-- The strings that are hashed for clauses of a document. -/
def hashedKeys (raw : CuadDocument) : List String :=
  raw.data.flatMap fun entry =>
    (entryClauses sha1 entry).map fun c => clauseKey c.contractId c.category c.text

end Hashing

theorem bar_notMem_normalizeCategory (question : String) :
    '|' ∉ (normalizeCategory question).toList := by
  intro h
  rw [normalizeCategory, String.toList_ofList] at h
  rcases Text.mem_replaceRuns (Text.mem_of_mem_strip h) with heq | hkeep
  · exact absurd heq (by decide)
  · exact absurd hkeep (by decide)

variable {sha1 : String → BitVec 160}

theorem length_contractId (title : String) : (contractId sha1 title).toList.length = 16 := by
  simp [contractId]

/-- Contract ids have one length, so a clause id determines its contract and its digest. -/
theorem clauseId_inj {cid cid' category category' text text' : String}
    (hlen : cid.toList.length = cid'.toList.length)
    (h : clauseId sha1 cid category text = clauseId sha1 cid' category' text') :
    cid = cid' ∧ clauseDigest sha1 (clauseKey cid category text) =
      clauseDigest sha1 (clauseKey cid' category' text') := by
  have hl := congrArg String.toList h
  simp only [clauseId, String.toList_append, List.append_assoc] at hl
  obtain ⟨hcid, hrest⟩ := List.append_inj hl hlen
  refine ⟨String.toList_injective hcid, String.toList_injective ?_⟩
  simpa using hrest

/-- A category contains no bar, so the string that is hashed determines its parts. -/
theorem clauseKey_inj {cid category category' text text' : String}
    (hcat : '|' ∉ category.toList) (hcat' : '|' ∉ category'.toList)
    (h : clauseKey cid category text = clauseKey cid category' text') :
    category = category' ∧ text = text' := by
  have hl := congrArg String.toList h
  simp only [clauseKey, String.toList_append, List.append_assoc] at hl
  have hl := List.append_cancel_left (List.append_cancel_left hl)
  obtain ⟨hcategory, htext⟩ := Sequences.append_cons_inj_left hcat hcat' hl
  exact ⟨String.toList_injective hcategory, String.toList_injective htext⟩

theorem mem_unique {seen : List String} {cs : List ParsedClause} {c : ParsedClause}
    (h : c ∈ unique seen cs) : c ∈ cs := by
  induction cs generalizing seen with
  | nil => simp [unique] at h
  | cons d ds ih =>
    unfold unique at h
    split_ifs at h
    · exact List.mem_cons_of_mem _ (ih h)
    · rcases List.mem_cons.mp h with rfl | h
      · exact List.mem_cons_self
      · exact List.mem_cons_of_mem _ (ih h)

theorem mem_entryClauses {entry : CuadEntry} {c : ParsedClause} (h : c ∈ entryClauses sha1 entry) :
    c.contractId = contractId sha1 entry.title ∧
      c.clauseId = clauseId sha1 c.contractId c.category c.text ∧ '|' ∉ c.category.toList := by
  obtain ⟨paragraph, -, hparagraph⟩ := List.mem_flatMap.mp h
  obtain ⟨qa, -, hqa⟩ := List.mem_flatMap.mp hparagraph
  obtain ⟨ans, -, hans⟩ := List.mem_filterMap.mp hqa
  dsimp only at hans
  split_ifs at hans
  cases hans
  exact ⟨rfl, rfl, bar_notMem_normalizeCategory qa.question⟩

end LegalLens.Ingestion
