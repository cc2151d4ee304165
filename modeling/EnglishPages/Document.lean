import EnglishPages.Dialect
import EnglishPages.Span

/-!
Documents: pages as trees of statements. A page and a function hold the statements that belong to
them; imports, titles, script blocks and elements are leaves.
-/

namespace EnglishPages

inductive ElementKind where
  | heading
  | paragraph
  | button
  | link
  | image
  | div
  | input
  | label
  | span
  | section
  | article
  | nav
  | footer
  | header
  | code
  | form
  | textarea
  | select
  | option
  | table
  | row
  | cell
  | list
  | item
  | other (word : String)
  deriving DecidableEq, Repr

namespace ElementKind

def named : List ElementKind :=
  [heading, paragraph, button, link, image, div, input, label, span, «section», article, nav,
   footer, header, code, form, textarea, select, option, table, row, cell, list, item]

def word : ElementKind → String
  | heading => "heading"
  | paragraph => "paragraph"
  | button => "button"
  | link => "link"
  | image => "image"
  | div => "div"
  | input => "input"
  | label => "label"
  | span => "span"
  | «section» => "section"
  | article => "article"
  | nav => "nav"
  | footer => "footer"
  | header => "header"
  | code => "code"
  | form => "form"
  | textarea => "textarea"
  | select => "select"
  | option => "option"
  | table => "table"
  | row => "row"
  | cell => "cell"
  | list => "list"
  | item => "item"
  | other word => word

def ofWord (word : String) : ElementKind :=
  let lower := word.toLower
  (named.find? (·.word == lower)).getD (other lower)

def plainTag? : ElementKind → Option String
  | span => some "span"
  | «section» => some "section"
  | article => some "article"
  | nav => some "nav"
  | footer => some "footer"
  | header => some "header"
  | code => some "code"
  | form => some "form"
  | textarea => some "textarea"
  | select => some "select"
  | option => some "option"
  | table => some "table"
  | row => some "tr"
  | cell => some "td"
  | list => some "ul"
  | item => some "li"
  | _ => none

end ElementKind

inductive ScriptKind where
  | script
  | cscript
  | cstyle
  deriving DecidableEq, Repr

namespace ScriptKind

def all : List ScriptKind := [script, cscript, cstyle]

def word : ScriptKind → String
  | script => "script"
  | cscript => "cscript"
  | cstyle => "cstyle"

def ofWord? (word : String) : Option ScriptKind :=
  all.find? (·.word == word)

end ScriptKind

/-- An import. Its type is the word that was written for it, or the dialect's name once the import
is compiled. -/
structure Import where
  type : Option String
  path : Option String
  compiled : Option String
  span : Span
  deriving DecidableEq, Repr

namespace Import

def dialect? (i : Import) : Option Dialect :=
  i.path.bind fun p => Dialect.ofPath? ⟨p⟩

end Import

structure Element where
  kind : ElementKind
  content : String
  attributes : List String
  span : Span
  deriving DecidableEq, Repr

inductive Node where
  | page (children : List Node) (span : Span)
  | function (name : String) (children : List Node) (span : Span)
  | importing (statement : Import)
  | title (content : String) (span : Span)
  | script (kind : ScriptKind) (attributes : List String) (span : Span)
  | element (element : Element)
  deriving Repr

namespace Node

/-- Where the statement stands; of a page or a function only its header. -/
def span : Node → Span
  | page _ s => s
  | function _ _ s => s
  | importing i => i.span
  | title _ s => s
  | script _ _ s => s
  | element e => e.span

/-- A name that marks a function as setup: its titles and imports belong to the head, and the rest
of it is not rendered. -/
def isSetupName (name : String) : Bool :=
  "setup".toList.isPrefixOf name.toList

def isSetup : Node → Bool
  | function name _ _ => isSetupName name
  | _ => false

def import? : Node → Option Import
  | importing i => some i
  | _ => none

theorem import?_eq_some {n : Node} {i : Import} : n.import? = some i ↔ n = .importing i := by
  cases n <;> simp [import?]

def functionBody : Node → List Node
  | function _ children _ => children
  | _ => []

end Node

structure Document where
  nodes : List Node
  deriving Repr

namespace Document

/-- The imports that are compiled: those at the top level and those directly inside a function
there, in the order of the document. -/
def imports (d : Document) : List Import :=
  d.nodes.flatMap fun node => (node :: node.functionBody).filterMap Node.import?

end Document

end EnglishPages
