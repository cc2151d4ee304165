import EnglishPages.Command.Invocation
import EnglishPages.Command.Outcome
import EnglishPages.Document.Json
import EnglishPages.Files

/-!
Running commands. `build` compiles a page with the settings beside it, writes the page and, next to
each compiled import, its output; the two dialect commands compile one file; the others only
print.

A command that fails has written nothing: everything that can fail comes before the first file, and
an output of an import that cannot be written is a warning.
-/

namespace EnglishPages.Command

variable {m : Type → Type} [Monad m] [Files m]

def baseDirectory (file : Path) : Path :=
  if file.directory.text.isEmpty then ⟨"."⟩ else file.directory

def configCauses (e : ConfigError) : List String :=
  match e with
  | .unreadable _ cause => [e.message, cause.message]
  | .invalidJson => [e.message, "the text is not the JSON of settings"]
  | _ => [e.message]

def loadConfig (named : Option Path) (directory : Path) : m (Except Outcome Config) := do
  match named with
  | some path =>
      match ← Config.load path with
      | .ok config => return .ok config
      | .error e =>
          return .error (.failure ("failed to load config " ++ path.text) (configCauses e))
  | none =>
      match ← Config.discover directory with
      | .ok config => return .ok config
      | .error e => return .error (.failure ("failed to load " ++ Config.fileName) (configCauses e))

def readFailure (file : Path) (e : FileError) : Outcome :=
  .failure ("failed to read " ++ file.text) [e.message]

def writeFailure (file : Path) (e : FileError) : Outcome :=
  .failure ("failed to write " ++ file.text) [e.message]

def sidecar? (base : Path) (i : Import) : Option (Path × String) :=
  match i.path, i.compiled, i.dialect? with
  | some path, some compiled, some d => some (d.sidecar (base.join ⟨path⟩), compiled)
  | _, _, _ => none

def writeSidecars (base : Path) : List Import → m (List Path × List Diagnostic)
  | [] => return ([], [])
  | i :: rest =>
      match sidecar? base i with
      | none => writeSidecars base rest
      | some (target, text) => do
          let result ← Files.write target text
          let (written, warnings) ← writeSidecars base rest
          match result with
          | .ok () => return (target :: written, warnings)
          | .error e =>
              return (written, .warning .sidecarNotWritten
                ("could not write " ++ target.text ++ ": " ++ e.message) i.span :: warnings)

def diagnosticsJson (ds : List Diagnostic) : Json :=
  .array (ds.map Diagnostic.toJson)

def parseFailure (format : Format) (e : ParseError) : Outcome :=
  let ds := [e.toDiagnostic]
  match format with
  | .json =>
      ⟨1, Outcome.jsonText (.object [("success", .bool false), ("error", .string e.message),
        ("diagnostics", diagnosticsJson ds)]), ""⟩
  | .pretty => ⟨1, "", Text.terminated (reportLines ds)⟩

def buildReport (format : Format) (file out : Path) (sidecars : List Path)
    (ds : List Diagnostic) : Outcome :=
  match format with
  | .json =>
      .print (Outcome.jsonText (.object [("success", .bool true), ("output", .string out.text),
        ("sidecars", .ofStrings (sidecars.map Path.text)), ("diagnostics", diagnosticsJson ds)]))
  | .pretty =>
      ⟨0, "", Text.terminated (reportLines ds ++
        ["compiled " ++ file.text ++ " -> " ++ out.text] ++
        sidecars.map fun p => "  wrote " ++ p.text)⟩

def writePage (format : Format) (file out base : Path) (config : Config) (c : Compilation) :
    m Outcome := do
  match ← Files.write out c.html with
  | .error e => return writeFailure out e
  | .ok () =>
      let (sidecars, warnings) ←
        if config.emitSidecars then writeSidecars base c.document.imports else pure ([], [])
      return buildReport format file out sidecars (c.diagnostics ++ warnings)

def build (format : Format) (named : Option Path) (file : Path) (out : Option Path) :
    m Outcome := do
  if file.extension? = some "heng" then
    match ← Files.read file with
    | .error e => return readFailure file e
    | .ok source =>
        let base := baseDirectory file
        match ← loadConfig named base with
        | .error outcome => return outcome
        | .ok config =>
            match ← compileFiles source base config with
            | .error e => return parseFailure format e
            | .ok c => writePage format file (out.getD (file.withExtension "html")) base config c
  else return .failure ("expected a .heng file, got " ++ file.text) []

def dialectReport (format : Format) (d : Dialect) (file out : Path) : Outcome :=
  match format with
  | .json =>
      .print (Outcome.jsonText (.object [("success", .bool true),
        ("dialect", .string d.sourceExtension), ("output", .string out.text)]))
  | .pretty => ⟨0, "", Text.terminated ["compiled " ++ file.text ++ " -> " ++ out.text]⟩

/-- Compiles a file of a dialect, and prints the output or writes it. A target with the same
components as the file is refused. -/
def compileFile (format : Format) (d : Dialect) (file : Path) (out : Option Path)
    (toStdout : Bool) : m Outcome := do
  match ← Files.read file with
  | .error e => return readFailure file e
  | .ok source =>
      if toStdout then return .print (d.compile source)
      else
        let target := out.getD (d.sidecar file)
        if target.same file then
          return .failure ("refusing to overwrite the input file " ++ file.text) []
        else
          match ← Files.write target (d.compile source) with
          | .error e => return writeFailure target e
          | .ok () => return dialectReport format d file target

def tokensText (ts : List Token) : String :=
  (Json.array (ts.map Token.toJson)).pretty

def tokens (file : Path) : m Outcome := do
  match ← Files.read file with
  | .error e => return readFailure file e
  | .ok source => return .print (tokensText (Token.tokenize source) ++ "\n")

def astReport (format : Format) (source : String) : Outcome :=
  match Document.parse source, format with
  | .ok d, .json =>
      .print (Outcome.jsonText (.object [("ast", d.toJson), ("diagnostics", .array [])]))
  | .ok d, .pretty => .print (d.toJson.pretty ++ "\n")
  | .error e, .json =>
      ⟨1, Outcome.jsonText (.object [("ast", .null),
        ("diagnostics", diagnosticsJson [e.toDiagnostic])]), ""⟩
  | .error e, .pretty => ⟨1, "", Text.terminated (reportLines [e.toDiagnostic])⟩

def ast (format : Format) (file : Path) : m Outcome := do
  match ← Files.read file with
  | .error e => return readFailure file e
  | .ok source => return astReport format source

def explain (format : Format) (id : String) : Outcome :=
  match format with
  | .json =>
      .print (Outcome.jsonText (.object [("id", .string id),
        ("explanation", .ofOption .string (explain? id))]))
  | .pretty =>
      .print (id ++ ": " ++ (explain? id).getD "(no explanation available)" ++ "\n")

def Invocation.run (i : Invocation) (default : Format) : m Outcome :=
  let format := i.format.getD default
  match i.action with
  | .build file out => build format i.config file out
  | .compile d file out toStdout => compileFile format d file out toStdout
  | .tokens file => Command.tokens file
  | .ast file => Command.ast format file
  | .explain id => pure (Command.explain format id)

def versionText : String := "eng 0.1.0\n"

def helpText : String :=
  Text.terminated
    ["ENG toolchain: compile .heng pages to HTML, .seng scripts to JavaScript, and .ceng styles " ++
       "to CSS",
     "",
     "Usage: eng [OPTIONS] <COMMAND>",
     "",
     "Commands:",
     "  build    Compile a .heng page to HTML, inlining its .seng and .ceng imports",
     "  seng     Transpile a .seng file to JavaScript",
     "  ceng     Rewrite a .ceng file to CSS",
     "  tokens   Print the token stream of a .heng file as JSON",
     "  ast      Parse a .heng file and print its syntax tree as JSON",
     "  explain  Explain a diagnostic ID (e.g., ENG2001)",
     "  help     Print this message or the help of the given subcommand(s)",
     "",
     "Options:",
     "      --output <OUTPUT>  Output mode [possible values: pretty, json]",
     "      --config <CONFIG>  Settings file",
     "  -h, --help             Print help",
     "  -V, --version          Print version"]

def Stop.outcome : Stop → Outcome
  | .help => .print helpText
  | .version => .print versionText
  | .usage e => ⟨2, "", Text.terminated ["error: " ++ e.message]⟩

def run (default : Format) (arguments : List String) : m Outcome :=
  match Invocation.parse arguments with
  | .ok i => i.run default
  | .error stop => pure stop.outcome

end EnglishPages.Command
