import EnglishPages.Span

/-!
Diagnostics: what the toolchain reports about a page. Each has the identifier of a code, a severity
and a message, and may have the span that it is about and some details for tools. An error aborts
the compilation; a warning means that the output is there but degraded.
-/

namespace EnglishPages

inductive Severity where
  | error
  | warning
  | information
  deriving DecidableEq, Repr, Inhabited

namespace Severity

def all : List Severity := [error, warning, information]

def name : Severity → String
  | error => "error"
  | warning => "warn"
  | information => "info"

end Severity

inductive Code where
  | expectedToken
  | importUnreadable
  | importWithoutPath
  | sidecarNotWritten
  deriving DecidableEq, Repr, Inhabited

namespace Code

def all : List Code := [expectedToken, importUnreadable, importWithoutPath, sidecarNotWritten]

def id : Code → String
  | expectedToken => "ENG1001"
  | importUnreadable => "ENG2001"
  | importWithoutPath => "ENG2002"
  | sidecarNotWritten => "ENG3001"

def explanation : Code → String
  | expectedToken =>
      "The parser reached a construct that requires a specific token (for example the " ++
      "`function` keyword) and found a different one. This is the only hard failure of the " ++
      "structural dialect; the whole compile is aborted."
  | importUnreadable =>
      "An imported .seng or .ceng file could not be read. The import is rendered as an " ++
      "external reference instead of being inlined; the compile still succeeds."
  | importWithoutPath =>
      "An `import` statement has no bracketed path, so there is nothing to resolve. Write it as " ++
      "`import seng from [app.seng]`."
  | sidecarNotWritten =>
      "The compiled .js or .css output of an import could not be written next to its source " ++
      "file. The HTML output is unaffected."

def ofId? (id : String) : Option Code :=
  all.find? (·.id == id)

theorem ofId?_id (c : Code) : ofId? c.id = some c := by
  cases c <;> decide

end Code

def explain? (id : String) : Option String :=
  (Code.ofId? id).map Code.explanation

structure Diagnostic where
  id : String
  severity : Severity
  message : String
  span : Option Span
  /-- Details by key, in the order of the keys. -/
  context : Option (List (String × String))
  deriving DecidableEq, Repr

namespace Diagnostic

def isError (d : Diagnostic) : Bool :=
  d.severity == .error

def warning (code : Code) (message : String) (span : Span) : Diagnostic :=
  ⟨code.id, .warning, message, some span, none⟩

def display (d : Diagnostic) : String :=
  d.severity.name ++ "[" ++ d.id ++ "]: " ++ d.message

def explanation? (d : Diagnostic) : Option String :=
  explain? d.id

def toJson (d : Diagnostic) : Json :=
  .object
    ([("id", .string d.id), ("severity", .string d.severity.name),
      ("message", .string d.message)] ++
      Json.optional "span" Span.toJson d.span ++
      Json.optional "context" (fun c => .object (c.map fun (k, v) => (k, .string v))) d.context)

def anyError (ds : List Diagnostic) : Bool :=
  ds.any isError

end Diagnostic

end EnglishPages
