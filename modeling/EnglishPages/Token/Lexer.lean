import EnglishPages.Text.Blank
import EnglishPages.Text.Scan
import EnglishPages.Token

/-!
Cutting a page source into tokens. A quote starts a string, an opening bracket a path and an ASCII
letter a word; every other character outside a token is dropped. Nothing is an error: a string or a
path that is not closed runs to the end of the source.

A lexeme is found by looking at the rest of the source alone. The scan then moves on character by
character, keeping count of bytes, lines and columns, and looks for the next lexeme once it has
passed the last one.
-/

namespace EnglishPages

structure Position where
  offset : Nat
  line : Nat
  column : Nat
  deriving DecidableEq, Repr, Inhabited

namespace Position

def start : Position := ⟨0, 1, 1⟩

def advance (p : Position) (c : Char) : Position :=
  if c = '\n' then ⟨p.offset + c.utf8Size, p.line + 1, 1⟩
  else ⟨p.offset + c.utf8Size, p.line, p.column + 1⟩

def advanceAll (p : Position) (cs : List Char) : Position :=
  cs.foldl advance p

theorem advanceAll_append (p : Position) (cs ds : List Char) :
    p.advanceAll (cs ++ ds) = (p.advanceAll cs).advanceAll ds := by
  simp [advanceAll]

end Position

namespace Token

structure Lexeme where
  kind : TokenKind
  value : String
  text : List Char
  deriving DecidableEq, Repr

/-- A string after its opening quote: its value, and its text up to the closing quote and with it.
After a backslash `n` is a newline and any other character is itself; a backslash at the end of the
source is itself too. -/
def stringBody : List Char → List Char × List Char
  | [] => ([], [])
  | c :: cs =>
      if c = '"' then ([], [c])
      else if c = '\\' then
        match cs with
        | [] => ([c], [c])
        | e :: cs =>
            let (value, text) := stringBody cs
            ((if e = 'n' then '\n' else e) :: value, c :: e :: text)
      else
        let (value, text) := stringBody cs
        (c :: value, c :: text)

def pathBody (cs : List Char) : List Char × List Char :=
  match Text.splitFirst? ']' cs with
  | some (inside, _) => (inside, inside ++ [']'])
  | none => (cs, cs)

def isWordChar (c : Char) : Bool :=
  c.isAlphanum || c == '_' || c == '-'

def lexeme? : List Char → Option Lexeme
  | [] => none
  | c :: cs =>
      if c = '"' then
        let (value, text) := stringBody cs
        some ⟨.string, String.ofList value, c :: text⟩
      else if c = '[' then
        let (inside, text) := pathBody cs
        some ⟨.path, String.ofList (Text.trim inside), c :: text⟩
      else if c.isAlpha then
        let text := c :: cs.takeWhile isWordChar
        let value := String.ofList (text.map Char.toLower)
        some ⟨if isReserved value then .keyword else .identifier, value, text⟩
      else none

/-- The tokens from a place on, after `skip` characters of a lexeme that has been read. -/
def scanFrom : Nat → Position → List Char → List Token
  | _, p, [] => [⟨.endOfInput, "", p.line, p.column, .empty p.offset⟩]
  | skip + 1, p, c :: cs => scanFrom skip (p.advance c) cs
  | 0, p, c :: cs =>
      match lexeme? (c :: cs) with
      | some l =>
          ⟨l.kind, l.value, p.line, p.column, ⟨p.offset, (p.advanceAll l.text).offset⟩⟩ ::
            scanFrom (l.text.length - 1) (p.advance c) cs
      | none => scanFrom 0 (p.advance c) cs

/-- The tokens of a source. The last one, and only that, marks the end of the input. -/
def tokenize (source : String) : List Token :=
  scanFrom 0 .start source.toList

theorem scanFrom_nil (skip : Nat) (p : Position) :
    scanFrom skip p [] = [⟨.endOfInput, "", p.line, p.column, .empty p.offset⟩] := by
  cases skip <;> rfl

theorem scanFrom_length (p : Position) (text cs : List Char) :
    scanFrom text.length p (text ++ cs) = scanFrom 0 (p.advanceAll text) cs := by
  induction text generalizing p with
  | nil => rfl
  | cons c text ih => exact ih (p.advance c)

end Token

end EnglishPages
