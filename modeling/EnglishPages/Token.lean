import EnglishPages.Span

/-!
Tokens of the page dialect. Words come in lower case and strings decoded, so a token holds its
normal form and, by its span, where it stands. A word is a keyword when it is one of the reserved
words and an identifier otherwise.
-/

namespace EnglishPages

inductive TokenKind where
  | keyword
  | identifier
  | string
  | path
  | endOfInput
  deriving DecidableEq, Repr, Inhabited

namespace TokenKind

def all : List TokenKind := [keyword, identifier, string, path, endOfInput]

def name : TokenKind → String
  | keyword => "KEYWORD"
  | identifier => "IDENTIFIER"
  | string => "STRING"
  | path => "PATH"
  | endOfInput => "EOF"

def ofName? (name : String) : Option TokenKind :=
  all.find? (·.name == name)

end TokenKind

structure Token where
  kind : TokenKind
  value : String
  line : Nat
  column : Nat
  span : Span
  deriving DecidableEq, Repr, Inhabited

namespace Token

def reservedWords : List String :=
  ["create", "page", "add", "function", "import", "from", "form", "with", "and",
   "heading", "paragraph", "button", "link", "image", "div", "span", "style", "script", "input",
   "label", "select", "option", "textarea", "table", "row", "cell", "list", "item", "code",
   "section", "article", "nav", "footer", "header", "title", "meta",
   "cscript", "cstyle",
   "heng_verson", "html_verson", "tite"]

def isReserved (word : String) : Bool :=
  reservedWords.contains word

def isKeyword (t : Token) (word : String) : Bool :=
  t.kind == .keyword && t.value == word

def isWord (t : Token) : Bool :=
  t.kind == .keyword || t.kind == .identifier

def isEnd (t : Token) : Bool :=
  t.kind == .endOfInput

def toJson (t : Token) : Json :=
  .object [("kind", .string t.kind.name), ("value", .string t.value), ("line", .natural t.line),
    ("column", .natural t.column), ("span", t.span.toJson)]

end Token

end EnglishPages
