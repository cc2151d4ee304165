import EnglishPages.Config
import EnglishPages.Document.Parser
import EnglishPages.Document.Resolution
import EnglishPages.Html.Page

/-!
Compiling a page: its source is parsed, its imports are resolved unless the settings say otherwise,
and the document is rendered. Only parsing can fail.
-/

namespace EnglishPages

structure Compilation where
  document : Document
  html : String
  diagnostics : List Diagnostic

def Document.compile (d : Document) (base : Path) (load : Loader) (config : Config) :
    Compilation :=
  let document := if config.inlineImports then d.resolve base load else d
  { document
    html := Html.render config.layout document
    diagnostics := if config.inlineImports then d.resolutionWarnings base load else [] }

def compile (source : String) (base : Path) (load : Loader) (config : Config) :
    Except ParseError Compilation :=
  (Document.parse source).map fun d => d.compile base load config

theorem compile_eq_ok_iff {source : String} {base : Path} {load : Loader} {config : Config}
    {c : Compilation} : compile source base load config = .ok c ↔
      ∃ d, Document.parse source = .ok d ∧ d.compile base load config = c := by
  rw [compile]
  cases Document.parse source with
  | error e =>
      constructor
      · intro h
        cases h
      · rintro ⟨d, hd, -⟩
        cases hd
  | ok d =>
      constructor
      · intro h
        exact ⟨d, rfl, Except.ok.inj h⟩
      · rintro ⟨d', hd, rfl⟩
        obtain rfl := Except.ok.inj hd
        rfl

structure CompileReport where
  html : Option String
  error : Option String
  diagnostics : List Diagnostic

namespace CompileReport

def success (r : CompileReport) : Bool :=
  r.html.isSome

def ofResult : Except ParseError Compilation → CompileReport
  | .ok c => ⟨some c.html, none, c.diagnostics⟩
  | .error e => ⟨none, some e.message, [e.toDiagnostic]⟩

def toJson (r : CompileReport) : Json :=
  .object [("success", .bool r.success), ("html", .ofOption .string r.html),
    ("error", .ofOption .string r.error),
    ("diagnostics", .array (r.diagnostics.map Diagnostic.toJson))]

end CompileReport

end EnglishPages
