import EnglishPages.Diagnostic
import EnglishPages.Document
import EnglishPages.Token.Lexer

/-!
From tokens to documents, by recursive descent. Statements are read one after another: a keyword
that starts a statement takes the tokens that belong to it, and a token that starts none is passed
over. A page holds every statement up to the end of the input, and a function those up to the next
function.

A token that is not the expected one ends the reading. The readers are only called at the keyword
that starts their statement, so in fact there is one place for that: after `add`, where a word must
stand.
-/

namespace EnglishPages

inductive Expected where
  | kind (kind : TokenKind)
  | word
  deriving DecidableEq, Repr

def Expected.name : Expected → String
  | kind k => k.name
  | word => "KEYWORD or IDENTIFIER"

inductive Mismatch where
  | kind (expected : Expected) (found : TokenKind)
  | value (expected found : String)
  deriving DecidableEq, Repr

structure ParseError where
  mismatch : Mismatch
  line : Nat
  column : Nat
  span : Span
  deriving DecidableEq, Repr

namespace ParseError

def atToken (t : Token) (mismatch : Mismatch) : ParseError :=
  ⟨mismatch, t.line, t.column, t.span⟩

def message (e : ParseError) : String :=
  match e.mismatch with
  | .kind expected found => "Expected " ++ expected.name ++ ", got " ++ found.name
  | .value expected found => "Expected '" ++ expected ++ "', got '" ++ found ++ "'"

def toDiagnostic (e : ParseError) : Diagnostic :=
  { id := Code.expectedToken.id
    severity := .error
    message := e.message
    span := some e.span
    context := some [("column", toString e.column), ("line", toString e.line)] }

end ParseError

/-- A place among tokens: the tokens from it on, some of which marks the end of the input, and the
span of the last token that was passed. -/
structure Cursor where
  last : Span
  rest : List Token
  ended : ∃ t ∈ rest, t.isEnd = true

namespace Cursor

theorem rest_ne_nil (c : Cursor) : c.rest ≠ [] := by
  obtain ⟨t, ht, -⟩ := c.ended
  exact List.ne_nil_of_mem ht

def peek (c : Cursor) : Token :=
  c.rest.head c.rest_ne_nil

def atEnd (c : Cursor) : Bool :=
  c.peek.isEnd

theorem ended_tail (c : Cursor) (h : c.atEnd = false) : ∃ t ∈ c.rest.tail, t.isEnd = true := by
  obtain ⟨last, rest, ended⟩ := c
  cases rest with
  | nil => simp at ended
  | cons t rest =>
      have ht : t.isEnd = false := h
      simpa [ht] using ended

def advance (c : Cursor) : Cursor :=
  if h : c.atEnd = false then ⟨c.peek.span, c.rest.tail, c.ended_tail h⟩ else c

def closed (ts : List Token) : List Token :=
  match ts.getLast? with
  | none => [⟨.endOfInput, "", 1, 1, .empty 0⟩]
  | some t =>
      if t.isEnd then ts
      else ts ++ [⟨.endOfInput, "", t.line, t.column, .empty t.span.stop⟩]

theorem closed_ended (ts : List Token) : ∃ t ∈ closed ts, t.isEnd = true := by
  unfold closed
  split
  · exact ⟨_, List.mem_singleton_self _, rfl⟩
  · next t ht =>
      split
      · next hend => exact ⟨t, List.mem_of_getLast? ht, hend⟩
      · exact ⟨_, List.mem_append_right ts (List.mem_singleton_self _), rfl⟩

def start (ts : List Token) : Cursor :=
  ⟨.empty 0, closed ts, closed_ended ts⟩

theorem length_advance_lt (c : Cursor) (h : c.atEnd = false) :
    c.advance.rest.length < c.rest.length := by
  have hpos := List.length_pos_iff.2 c.rest_ne_nil
  simp only [advance, h, dite_true, List.length_tail]
  omega

theorem length_advance_le (c : Cursor) : c.advance.rest.length ≤ c.rest.length := by
  by_cases h : c.atEnd = false
  · exact Nat.le_of_lt (c.length_advance_lt h)
  · simp [advance, h]

def expect (c : Cursor) (kind : TokenKind) (value : Option String) : Except ParseError Token :=
  if c.peek.kind ≠ kind then .error (.atToken c.peek (.kind (.kind kind) c.peek.kind))
  else
    match value with
    | some value =>
        if c.peek.value ≠ value then .error (.atToken c.peek (.value value c.peek.value))
        else .ok c.peek
    | none => .ok c.peek

def expectWord (c : Cursor) : Except ParseError Token :=
  if c.peek.isWord then .ok c.peek else .error (.atToken c.peek (.kind .word c.peek.kind))

def string (c : Cursor) : String × Cursor :=
  if c.peek.kind = .string then (c.peek.value, c.advance) else ("", c)

def statementWords : List String := ["create", "add", "function", "import"]

theorem atEnd_of_isWord {c : Cursor} (h : c.peek.isWord = true) : c.atEnd = false := by
  cases hk : c.peek.kind <;> simp_all [Token.isWord, atEnd, Token.isEnd]

def words (c : Cursor) : List String × Cursor :=
  if _h : c.peek.isWord = true ∧ c.peek.value ∉ statementWords then
    let (ws, c') := words c.advance
    (if c.peek.value = "and" then ws else c.peek.value :: ws, c')
  else ([], c)
termination_by c.rest.length
decreasing_by exact c.length_advance_lt (atEnd_of_isWord _h.1)

def attributes (c : Cursor) : List String × Cursor :=
  if c.peek.isKeyword "with" then c.advance.words else ([], c)

def pathExtensions : List String := ["js", "ts", "css", "ceng", "seng"]

def isFrom (t : Token) : Bool :=
  t.isKeyword "from" || t.isKeyword "form"

def type (c : Cursor) : Option String × Cursor :=
  if c.peek.isWord && !isFrom c.peek then (some c.peek.value, c.advance) else (none, c)

def skipFrom (c : Cursor) : Cursor :=
  if isFrom c.peek then c.advance else c

def path (c : Cursor) : Option String × Cursor :=
  if c.peek.kind = .path then
    let p := c.peek.value
    let c := c.advance
    if c.peek.kind = .identifier ∧ c.peek.value ∈ pathExtensions then
      (some (p ++ "." ++ c.peek.value), c.advance)
    else (some p, c)
  else (none, c)

theorem length_string_le (c : Cursor) : c.string.2.rest.length ≤ c.rest.length := by
  unfold string
  split
  · exact c.length_advance_le
  · exact Nat.le_refl _

theorem length_words_le (c : Cursor) : c.words.2.rest.length ≤ c.rest.length := by
  fun_induction words c with
  | case1 c h ws c' hws ih =>
      rw [hws] at ih
      exact Nat.le_trans ih c.length_advance_le
  | case2 c h => exact Nat.le_refl _

theorem length_attributes_le (c : Cursor) : c.attributes.2.rest.length ≤ c.rest.length := by
  unfold attributes
  split
  · exact Nat.le_trans c.advance.length_words_le c.length_advance_le
  · exact Nat.le_refl _

theorem length_type_le (c : Cursor) : c.type.2.rest.length ≤ c.rest.length := by
  unfold type
  split
  · exact c.length_advance_le
  · exact Nat.le_refl _

theorem length_skipFrom_le (c : Cursor) : c.skipFrom.rest.length ≤ c.rest.length := by
  unfold skipFrom
  split
  · exact c.length_advance_le
  · exact Nat.le_refl _

theorem length_path_le (c : Cursor) : c.path.2.rest.length ≤ c.rest.length := by
  unfold path
  split
  · simp only
    split
    · exact Nat.le_trans c.advance.length_advance_le c.length_advance_le
    · exact c.length_advance_le
  · exact Nat.le_refl _

abbrev Beyond (c : Cursor) : Type :=
  { c' : Cursor // c'.rest.length < c.rest.length }

abbrev Onward (c : Cursor) : Type :=
  { c' : Cursor // c'.rest.length ≤ c.rest.length }

end Cursor

namespace Parser

def anonymous : String := "anonymous"

/-- After `add` and a word for what is added: its content and its attributes. A title drops the
attributes. -/
def addition (start word : Token) (c : Cursor) : Node × Cursor :=
  let (content, c) := c.string
  let (attributes, c) := c.attributes
  let span := start.span.join c.last
  if word.value = "title" ∨ word.value = "tite" then (.title content span, c)
  else (.element ⟨ElementKind.ofWord word.value, content, attributes, span⟩, c)

/-- After `import`: a type, `from`, and a path, each of which may be missing. -/
def importation (start : Token) (c : Cursor) : Node × Cursor :=
  let (type, c) := c.type
  let (path, c) := c.skipFrom.path
  (.importing ⟨type, path, none, start.span.join c.last⟩, c)

def functionName (c : Cursor) : String × Cursor :=
  if c.peek.kind = .identifier then (c.peek.value, c.advance) else (anonymous, c)

def scriptBlock (kind : ScriptKind) (start : Token) (c : Cursor) : Node × Cursor :=
  let (attributes, c) := c.attributes
  (.script kind attributes (start.span.join c.last), c)

def title (start : Token) (c : Cursor) : Node × Cursor :=
  let (content, c) := c.string
  (.title content (start.span.join c.last), c)

theorem length_addition_le (start word : Token) (c : Cursor) :
    (addition start word c).2.rest.length ≤ c.rest.length := by
  have hcursor : (addition start word c).2 = c.string.2.attributes.2 := by
    simp only [addition]
    split <;> rfl
  rw [hcursor]
  exact Nat.le_trans c.string.2.length_attributes_le c.length_string_le

theorem length_importation_le (start : Token) (c : Cursor) :
    (importation start c).2.rest.length ≤ c.rest.length :=
  Nat.le_trans c.type.2.skipFrom.length_path_le <|
    Nat.le_trans c.type.2.length_skipFrom_le c.length_type_le

theorem length_functionName_le (c : Cursor) :
    (functionName c).2.rest.length ≤ c.rest.length := by
  unfold functionName
  split
  · exact c.length_advance_le
  · exact Nat.le_refl _

def beyond {c : Cursor} (h : c.atEnd = false) (r : Node × Cursor)
    (hr : r.2.rest.length ≤ c.advance.rest.length) : Option Node × c.Beyond :=
  (some r.1, ⟨r.2, Nat.lt_of_le_of_lt hr (c.length_advance_lt h)⟩)

def add (c : Cursor) (h : c.atEnd = false) : Except ParseError (Option Node × c.Beyond) := do
  let start ← c.expect .keyword (some "add")
  let word ← c.advance.expectWord
  return beyond h (addition start word c.advance.advance)
    (Nat.le_trans (length_addition_le start word _) c.advance.length_advance_le)

def importing (c : Cursor) (h : c.atEnd = false) : Except ParseError (Option Node × c.Beyond) := do
  let start ← c.expect .keyword (some "import")
  return beyond h (importation start c.advance) (length_importation_le start _)

mutual

def statement (c : Cursor) (h : c.atEnd = false) :
    Except ParseError (Option Node × c.Beyond) :=
  if c.peek.kind = .keyword then
    match c.peek.value with
    | "create" => create c h
    | "add" => add c h
    | "function" => function c h
    | "import" => importing c h
    | "title" => .ok (beyond h (title c.peek c.advance) c.advance.length_string_le)
    | "tite" => .ok (beyond h (title c.peek c.advance) c.advance.length_string_le)
    | word =>
        match ScriptKind.ofWord? word with
        | some kind =>
            .ok (beyond h (scriptBlock kind c.peek c.advance) c.advance.length_attributes_le)
        | none => .ok (none, ⟨c.advance, c.length_advance_lt h⟩)
  else .ok (none, ⟨c.advance, c.length_advance_lt h⟩)
termination_by (c.rest.length, 1)

/-- A page, which takes every statement that is left. `create` before any other token is
nothing, and that token is left in place. -/
def create (c : Cursor) (h : c.atEnd = false) : Except ParseError (Option Node × c.Beyond) := do
  let start ← c.expect .keyword (some "create")
  if c.advance.peek.isKeyword "page" then
    let (children, c') ← statements false c.advance.advance
    return beyond h (.page children (start.span.join c.advance.advance.last), c'.1)
      (Nat.le_trans c'.2 c.advance.length_advance_le)
  else return (none, ⟨c.advance, c.length_advance_lt h⟩)
termination_by (c.rest.length, 0)
decreasing_by
  exact Prod.Lex.left _ _
    (Nat.lt_of_le_of_lt c.advance.length_advance_le (c.length_advance_lt h))

def function (c : Cursor) (h : c.atEnd = false) :
    Except ParseError (Option Node × c.Beyond) := do
  let start ← c.expect .keyword (some "function")
  let named := functionName c.advance
  let (children, c') ← statements true named.2
  return beyond h (.function named.1 children (start.span.join named.2.last), c'.1)
    (Nat.le_trans c'.2 (length_functionName_le c.advance))
termination_by (c.rest.length, 0)
decreasing_by
  exact Prod.Lex.left _ _
    (Nat.lt_of_le_of_lt (length_functionName_le c.advance) (c.length_advance_lt h))

/-- The statements from a place on, up to the end or, inside a function, to the next function. -/
def statements (inFunction : Bool) (c : Cursor) : Except ParseError (List Node × c.Onward) :=
  if h : c.atEnd = false then
    if inFunction && c.peek.isKeyword "function" then .ok ([], ⟨c, Nat.le_refl _⟩)
    else do
      let (node, c₁) ← statement c h
      let (nodes, c₂) ← statements inFunction c₁.1
      return (node.toList ++ nodes, ⟨c₂.1, Nat.le_trans c₂.2 (Nat.le_of_lt c₁.2)⟩)
  else .ok ([], ⟨c, Nat.le_refl _⟩)
termination_by (c.rest.length, 2)
decreasing_by
  · exact Prod.Lex.right _ (by decide)
  · exact Prod.Lex.left _ _ c₁.2

end

end Parser

namespace Document

def ofTokens (ts : List Token) : Except ParseError Document :=
  (Parser.statements false (Cursor.start ts)).map fun r => ⟨r.1⟩

def parse (source : String) : Except ParseError Document :=
  ofTokens (Token.tokenize source)

end Document

end EnglishPages
