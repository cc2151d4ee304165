import EnglishPages.Document
import EnglishPages.Json.Value

/-!
Documents as JSON. A node is an object that names its type; members that are absent are left out,
and the kind of an element is written in upper case. Reading asks for every member with its exact
type, takes an optional one that is null for absent, classifies the kind of an element by its word
in any case, refuses a member that is repeated, and ignores members that it does not know.

Reading knows shorter spellings that are never written. A document, a node or a span may be an array
of its fields, a node's type in front of them; there an optional field must be given, if only as
null. Inside another node, a node may give its type by number.
-/

namespace EnglishPages

namespace Import

def members (i : Import) : List (String × Json) :=
  Json.optional "import_type" .string i.type ++ Json.optional "path" .string i.path ++
    Json.optional "compiled" .string i.compiled ++ [("span", i.span.toJson)]

end Import

namespace ElementKind

def jsonName (k : ElementKind) : String :=
  k.word.toUpper

end ElementKind

namespace Node

mutual

def toJson : Node → Json
  | page children span =>
      .object [("type", .string "PAGE"), ("children", .array (listToJson children)),
        ("span", span.toJson)]
  | function name children span =>
      .object [("type", .string "FUNCTION"), ("name", .string name),
        ("children", .array (listToJson children)), ("span", span.toJson)]
  | importing i => .object (("type", .string "IMPORT") :: i.members)
  | title content span =>
      .object [("type", .string "TITLE"), ("content", .string content), ("span", span.toJson)]
  | script kind attributes span =>
      .object [("type", .string "SCRIPT_BLOCK"), ("kind", .string kind.word),
        ("attrs", .ofStrings attributes), ("span", span.toJson)]
  | element e =>
      .object [("type", .string "ELEMENT"), ("kind", .string e.kind.jsonName),
        ("content", .string e.content), ("attrs", .ofStrings e.attributes),
        ("span", e.span.toJson)]

def listToJson : List Node → List Json
  | [] => []
  | node :: nodes => toJson node :: listToJson nodes

end

def optionalString? (key : String) (j : Json) : Option (Option String) :=
  match j.member? key with
  | none => some none
  | some .null => some none
  | some (.string s) => some (some s)
  | some _ => none

def stringMember? (key : String) (j : Json) : Option String := do
  (← j.member? key).asString?

def stringsMember? (key : String) (j : Json) : Option (List String) := do
  (← (← j.member? key).asArray?).mapM Json.asString?

def spanMember? (j : Json) : Option Span := do
  Span.ofJson? (← j.member? "span")

/-- The kind of a script block: its word, alone or as the only key of an object that holds nothing
at it. -/
def scriptKind? : Json → Option ScriptKind
  | .string word => ScriptKind.ofWord? word
  | .object [(word, .null)] => ScriptKind.ofWord? word
  | .object [(word, .object [])] => ScriptKind.ofWord? word
  | _ => none

def typeNames : List String :=
  ["PAGE", "FUNCTION", "IMPORT", "TITLE", "SCRIPT_BLOCK", "ELEMENT"]

def fieldNames : String → List String
  | "PAGE" => ["children", "span"]
  | "FUNCTION" => ["name", "children", "span"]
  | "IMPORT" => ["import_type", "path", "compiled", "span"]
  | "TITLE" => ["content", "span"]
  | "SCRIPT_BLOCK" => ["kind", "attrs", "span"]
  | "ELEMENT" => ["kind", "content", "attrs", "span"]
  | _ => []

def type? (inside : Bool) : Json → Option String
  | .string name => some name
  | .natural n => if inside then typeNames[n]? else none
  | _ => none

def ofMembers? (type : String) (j : Json) (children : Option (List Node)) : Option Node :=
  match type with
  | "PAGE" => do return page (← children) (← spanMember? j)
  | "FUNCTION" => do return function (← stringMember? "name" j) (← children) (← spanMember? j)
  | "IMPORT" => do
      return importing ⟨← optionalString? "import_type" j, ← optionalString? "path" j,
        ← optionalString? "compiled" j, ← spanMember? j⟩
  | "TITLE" => do return title (← stringMember? "content" j) (← spanMember? j)
  | "SCRIPT_BLOCK" => do
      return script (← scriptKind? (← j.member? "kind")) (← stringsMember? "attrs" j)
        (← spanMember? j)
  | "ELEMENT" => do
      return element ⟨ElementKind.ofWord (← stringMember? "kind" j), ← stringMember? "content" j,
        ← stringsMember? "attrs" j, ← spanMember? j⟩
  | _ => none

mutual

/-- A node. `inside` says whether it stands inside another one. -/
def ofJson? (inside : Bool) : Json → Option Node
  | .object members => do
      let type ← type? inside (← members.lookup "type")
      let record ← Json.record? ("type" :: fieldNames type) (.object members)
      ofMembers? type record (childrenOf? members)
  | .array (tag :: items) => do
      let type ← type? inside tag
      let record ← Json.record? (fieldNames type) (.array items)
      ofMembers? type record (childrenAt? ((fieldNames type).idxOf "children") items)
  | _ => none

def childrenOf? : List (String × Json) → Option (List Node)
  | [] => none
  | (key, value) :: members =>
      if key = "children" then
        match value with
        | .array items => listOfJson? true items
        | _ => none
      else childrenOf? members

def childrenAt? : Nat → List Json → Option (List Node)
  | 0, .array items :: _ => listOfJson? true items
  | position + 1, _ :: fields => childrenAt? position fields
  | _, _ => none

def listOfJson? (inside : Bool) : List Json → Option (List Node)
  | [] => some []
  | j :: js => do return (← ofJson? inside j) :: (← listOfJson? inside js)

end

end Node

namespace Document

def toJson (d : Document) : Json :=
  .object [("nodes", .array (Node.listToJson d.nodes))]

def ofJson? (j : Json) : Option Document := do
  let record ← j.record? ["nodes"]
  let items ← (← record.member? "nodes").asArray?
  return ⟨← Node.listOfJson? false items⟩

end Document

end EnglishPages
