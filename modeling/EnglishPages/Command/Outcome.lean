import EnglishPages.Diagnostic
import EnglishPages.Json.Printer
import EnglishPages.Text.Lines

/-!
What a command leaves behind besides files: its exit code and what it prints. Results go to the
standard output; failures, and in the format for people the diagnostics too, go to the standard
error.
-/

namespace EnglishPages.Command

structure Outcome where
  exit : Nat
  stdout : String
  stderr : String
  deriving DecidableEq, Repr

namespace Outcome

def print (text : String) : Outcome := ⟨0, text, ""⟩

def jsonText (value : Json) : String :=
  value.sorted.pretty ++ "\n"

def hanging (indent text : String) : String :=
  ("\n" ++ indent).intercalate (text.splitOn "\n")

def numbered (n : Nat) (cause : String) : String :=
  let digits := toString n
  String.ofList (List.replicate (5 - digits.length) ' ') ++ digits ++ ": " ++
    hanging "       " cause

def causeLines : List String → List String
  | [] => []
  | [cause] => ["", "Caused by:", "    " ++ hanging "    " cause]
  | causes => ["", "Caused by:"] ++ causes.zipIdx.map fun (cause, n) => numbered n cause

def failure (message : String) (causes : List String) : Outcome :=
  ⟨1, "", Text.terminated (("Error: " ++ message) :: causeLines causes)⟩

end Outcome

def heading : Severity → String
  | .error => "Error"
  | .warning => "Warning"
  | .information => "Advice"

def note? (d : Diagnostic) : Option String :=
  match d.context with
  | none | some [] => none
  | some context => some (", ".intercalate (context.map fun (key, value) => key ++ "=" ++ value))

def diagnosticLines (d : Diagnostic) : List String :=
  ["[" ++ d.id ++ "] " ++ heading d.severity ++ ": " ++ d.message] ++
    (d.explanation?.map ("Help: " ++ ·)).toList ++ ((note? d).map ("Note: " ++ ·)).toList

def summaryLines (ds : List Diagnostic) : List String :=
  let count (s : Severity) : Nat := ds.countP (·.severity == s)
  let counted (s : Severity) (word plural : String) : List String :=
    if count s = 0 then [] else [toString (count s) ++ " " ++ if count s = 1 then word else plural]
  let parts := counted .error "error" "errors" ++ counted .warning "warning" "warnings" ++
    counted .information "info" "info"
  if parts.isEmpty then [] else [", ".intercalate parts]

def reportLines (ds : List Diagnostic) : List String :=
  ds.flatMap diagnosticLines ++ summaryLines ds

end EnglishPages.Command
