import EnglishPages.Document
import EnglishPages.Html.Markup
import EnglishPages.Text.Lines

/-!
Documents as HTML pages. Imports at the top level, and the imports and titles of setup functions
there, make the head; everything else is the body, in the order of the document, where pages and
other functions stand for what they hold.

An import that is compiled is inlined; any other one that has a path is a reference to it.
-/

namespace EnglishPages.Html

structure Layout where
  unit : String
  defaultTitle : String
  deriving DecidableEq, Repr

def Layout.default : Layout := ⟨"  ", "ENG Page"⟩

/-- The last title of a setup function that is not empty. -/
def title? (nodes : List Node) : Option String :=
  let titles := (nodes.filter Node.isSetup).flatMap fun node =>
    node.functionBody.filterMap fun
      | .title content _ => if content.isEmpty then none else some content
      | _ => none
  titles.getLast?

def headImports (nodes : List Node) : List Import :=
  nodes.flatMap fun node =>
    match node with
    | .importing i => [i]
    | .function name children _ =>
        if Node.isSetupName name then children.filterMap Node.import? else []
    | _ => []

/-- The dialect of a compiled import: the one its type names, or else that of its path. -/
def inlineDialect? (i : Import) : Option Dialect :=
  match i.type.bind Dialect.ofExtension? with
  | some d => some d
  | none => i.dialect?

def inlineTag : Dialect → String
  | .script => "script"
  | .style => "style"

def occursIn (needle : List Char) : List Char → Bool
  | [] => needle.isEmpty
  | c :: cs => needle.isPrefixOf (c :: cs) || occursIn needle cs

/-- A reference to a file, as a script, a module or a style sheet by the type of the import and
then by the extension. -/
def reference (type path : String) : List Markup :=
  let hasType (word : String) : Bool := occursIn word.toList type.toList
  let hasEnd (ending : String) : Bool := ending.toList.isSuffixOf path.toList
  if hasType "js" then [.opening "script" [("src", path)], .closing "script"]
  else if hasType "ts" then
    [.opening "script" [("type", "module"), ("src", path)], .closing "script"]
  else if hasType "css" || hasType "ceng" || hasEnd ".css" || hasEnd ".ceng" then
    [.opening "link" [("rel", "stylesheet"), ("href", path)]]
  else [.opening "script" [("src", path)], .closing "script"]

def codeLines (code : String) : List String :=
  let cs := code.toList
  (Text.lines (if cs.getLast? = some '\n' then cs.dropLast else cs)).map String.ofList

def inlined (depth : Nat) (tag : String) (code : List String) : List Line :=
  ⟨depth, [.opening tag []]⟩ :: code.map (fun l => ⟨depth + 1, [.verbatim l]⟩) ++
    [⟨depth, [.closing tag]⟩]

def importLines (depth : Nat) (i : Import) : List Line :=
  match i.path with
  | none => []
  | some path =>
      match i.compiled, inlineDialect? i with
      | some compiled, some d => inlined depth (inlineTag d) (codeLines compiled)
      | _, _ => [⟨depth, reference (i.type.getD "") path⟩]

def dataAttributes (words : List String) : List (String × String) :=
  if words.isEmpty then []
  else [("class", " ".intercalate (words.map ("with-" ++ ·))), ("data-with", " ".intercalate words)]

def orDefault (content default : String) : String :=
  if content.isEmpty then default else content

/-- Content that is markup already: its first character that is not white space opens a tag. -/
def isMarkup (content : String) : Bool :=
  (Text.trimStart content.toList).head? == some '<'

def divContent (depth : Nat) (content : String) : List Line :=
  if content.isEmpty then []
  else if isMarkup content then
    (Text.lines content.toList).map fun l => ⟨depth, [.verbatim (String.ofList l)]⟩
  else [⟨depth, [.text content]⟩]

def elementLines (depth : Nat) (e : Element) : List Line :=
  let extra := dataAttributes e.attributes
  let around (tag : String) (attributes : List (String × String)) (default : String) : List Line :=
    [⟨depth, [.opening tag (attributes ++ extra), .text (orDefault e.content default),
      .closing tag]⟩]
  match e.kind with
  | .heading => around "h1" [] "Heading"
  | .paragraph => around "p" [] "Paragraph"
  | .button => around "button" [] "Button"
  | .link => around "a" [("href", "#")] "Link"
  | .label => around "label" [] "Label"
  | .image => [⟨depth, [.opening "img" ([("src", e.content), ("alt", "Image")] ++ extra)]⟩]
  | .input => [⟨depth, [.opening "input" ([("type", "text")] ++ extra)]⟩]
  | .div =>
      ⟨depth, [.opening "div" extra]⟩ :: divContent (depth + 1) e.content ++
        [⟨depth, [.closing "div"]⟩]
  | kind =>
      match kind.plainTag? with
      | some tag => around tag [] ""
      | none => []

def scriptLines (depth : Nat) (kind : ScriptKind) (attributes : List String) : List Line :=
  let around (tag : String) (tagAttributes : List (String × String)) (comment : String) :=
    [⟨depth, [.opening tag tagAttributes]⟩, ⟨depth + 1, [.verbatim comment]⟩,
      ⟨depth, [.closing tag]⟩]
  if kind = .cstyle then around "style" [] "/* custom style block */"
  else if attributes.contains "ts" then
    around "script" [("type", "module")] "// TypeScript (transpile required in production)"
  else around "script" [] "// Inline script"

def titleLine (depth : Nat) (content : String) : Line :=
  ⟨depth, [.opening "title" [], .text content, .closing "title"]⟩

mutual

def nodeLines (depth : Nat) : Node → List Line
  | .page children _ => nodesLines depth children
  | .function name children _ =>
      if Node.isSetupName name then [] else nodesLines depth children
  | .importing _ => []
  | .title content _ => [titleLine depth (orDefault content "Page Title")]
  | .script kind attributes _ => scriptLines depth kind attributes
  | .element e => elementLines depth e

def nodesLines (depth : Nat) : List Node → List Line
  | [] => []
  | node :: nodes => nodeLines depth node ++ nodesLines depth nodes

end

def headLines (layout : Layout) (nodes : List Node) : List Line :=
  [⟨2, [.opening "meta" [("charset", "UTF-8")]]⟩,
   ⟨2, [.opening "meta"
     [("name", "viewport"), ("content", "width=device-width, initial-scale=1.0")]]⟩,
   titleLine 2 ((title? nodes).getD layout.defaultTitle)] ++
    (headImports nodes).flatMap (importLines 2)

def pageLines (layout : Layout) (d : Document) : List Line :=
  [⟨0, [.doctype]⟩, ⟨0, [.opening "html" []]⟩, ⟨1, [.opening "head" []]⟩] ++
    headLines layout d.nodes ++
    [⟨1, [.closing "head"]⟩, ⟨1, [.opening "body" []]⟩] ++
    nodesLines 2 d.nodes ++
    [⟨1, [.closing "body"]⟩, ⟨0, [.closing "html"]⟩]

def render (layout : Layout) (d : Document) : String :=
  renderLines layout.unit (pageLines layout d)

end EnglishPages.Html
