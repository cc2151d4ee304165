import EnglishPages.FileError
import EnglishPages.Html.Page
import EnglishPages.Json.Reader
import EnglishPages.Text.Blank

/-!
Settings of a build. A settings file is JSON: an object with any of the four settings, each at most
once, or an array that gives them by position. A setting that is not given keeps its default; a
title must not be blank and an indentation must not be too wide.
-/

namespace EnglishPages

structure Config where
  defaultTitle : String
  indentWidth : Nat
  inlineImports : Bool
  emitSidecars : Bool
  deriving DecidableEq, Repr

inductive ConfigError where
  | unreadable (path : Path) (cause : FileError)
  | invalidJson
  | blankTitle
  | indentTooWide (width : Nat)
  deriving DecidableEq, Repr

namespace Config

def default : Config := ⟨"ENG Page", 2, true, true⟩

def maxIndentWidth : Nat := 8

def fileName : String := "eng.json"

def keys : List String := ["default_title", "indent_width", "inline_imports", "emit_sidecars"]

def set? (c : Config) (key : String) (value : Json) : Option Config :=
  match key with
  | "default_title" => value.asString?.map fun s => { c with defaultTitle := s }
  | "indent_width" => value.asWord?.map fun n => { c with indentWidth := n }
  | "inline_imports" => value.asBool?.map fun b => { c with inlineImports := b }
  | "emit_sidecars" => value.asBool?.map fun b => { c with emitSidecars := b }
  | _ => none

def setAll? (c : Config) : List (String × Json) → Option Config
  | [] => some c
  | (key, value) :: members =>
      if (members.lookup key).isSome then none
      else (c.set? key value).bind (·.setAll? members)

def ofJson? : Json → Option Config
  | .object members => default.setAll? members
  | .array items => if items.length ≤ keys.length then default.setAll? (keys.zip items) else none
  | _ => none

def validate (c : Config) : Except ConfigError Config :=
  if Text.isBlankText c.defaultTitle.toList then .error .blankTitle
  else if maxIndentWidth < c.indentWidth then .error (.indentTooWide c.indentWidth)
  else .ok c

def parse (text : String) : Except ConfigError Config :=
  match (Json.parse? text).bind ofJson? with
  | none => .error .invalidJson
  | some c => c.validate

def indentUnit (c : Config) : String :=
  String.ofList (List.replicate c.indentWidth ' ')

def layout (c : Config) : Html.Layout :=
  ⟨c.indentUnit, c.defaultTitle⟩

def toJson (c : Config) : Json :=
  .object [("default_title", .string c.defaultTitle), ("indent_width", .natural c.indentWidth),
    ("inline_imports", .bool c.inlineImports), ("emit_sidecars", .bool c.emitSidecars)]

end Config

namespace ConfigError

def field? : ConfigError → Option String
  | unreadable _ _ => none
  | invalidJson => none
  | blankTitle => some "default_title"
  | indentTooWide _ => some "indent_width"

def message : ConfigError → String
  | unreadable path cause => "failed to read config " ++ path.text ++ ": " ++ cause.message
  | invalidJson => "invalid config JSON"
  | blankTitle => "invalid default_title: must not be empty"
  | indentTooWide width =>
      "invalid indent_width: " ++ toString width ++ " exceeds maximum indent width (" ++
        toString Config.maxIndentWidth ++ ")"

end ConfigError

end EnglishPages
