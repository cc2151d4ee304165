import EnglishPages.Text.Lines
import EnglishPages.Text.Scan
import EnglishPages.Verbatim

/-!
The style dialect to CSS. Each line is read by itself: words for selectors become selectors, a
state after `when` becomes a pseudo-class, a short name for a property becomes the property, and a
line that ends in neither a brace nor a semicolon gets a semicolon. Blank lines and comment lines
are dropped.
-/

namespace EnglishPages.Style

open Text

/-- Short names and the properties that they stand for. The first name that fits wins. -/
def propertyAliases : List (String × String) :=
  [("background", "background-color"),
   ("bg", "background-color"),
   ("size", "font-size"),
   ("color", "color"),
   ("padding", "padding"),
   ("margin", "margin"),
   ("border", "border"),
   ("font", "font-family"),
   ("width", "width"),
   ("height", "height"),
   ("display", "display"),
   ("flex", "flex-direction")]

def withoutFor (line : List Char) : List Char :=
  (afterLeading? "for" line).getD line

def endsSelector (rest : List Char) : Bool :=
  rest.isEmpty || (after? '{' (trimStart rest)).isSome ||
    match (afterBlanks? rest).bind (afterKeyword? "when".toList) with
    | some (c :: _) => isBlank c
    | _ => false

def selector? (keyword : String) (sigil : Char) (line : List Char) : Option (List Char) := do
  let rest ← afterLeading? keyword line
  let (name, rest) ← word? rest
  if endsSelector rest then some (sigil :: name ++ rest) else none

def withSelector (line : List Char) : List Char :=
  ((selector? "class" '.' line).or (selector? "id" '#' line)).getD line

def state? (cs : List Char) : Option (List Char) := do
  let rest ← afterBlanks? cs
  let rest ← afterLeading? "when" rest
  let (name, rest) ← word? rest
  let _ ← after? '{' (trimStart rest)
  return name

def splitState? : List Char → Option (List Char × List Char)
  | [] => none
  | c :: cs =>
      match state? cs with
      | some name => some ([c], name)
      | none => (splitState? cs).map fun (before, name) => (c :: before, name)

/-- A state as a pseudo-class. What follows the brace is dropped. -/
def withPseudoClass (line : List Char) : List Char :=
  match splitState? line with
  | some (before, name) => before ++ ':' :: name ++ " \x7b".toList
  | none => line

def afterAlias? (short : String) (line : List Char) : Option (List Char) := do
  let rest ← afterKeyword? short.toList line
  let rest ← after? ':' rest
  return trimStart rest

def withProperty (line : List Char) : List Char :=
  (propertyAliases.findSome? fun (short, property) =>
    (afterAlias? short line).map fun value => (property ++ ": ").toList ++ value).getD line

def terminate (line : List Char) : List Char :=
  if endsWithAny ['{', '}', ';'] line then line else line ++ [';']

def cssLine (line : List Char) : List Char :=
  terminate (withProperty (withPseudoClass (withSelector (withoutFor line))))

def isKept (line : List Char) : Bool :=
  !line.isEmpty && !"--".toList.isPrefixOf line

def keptLines (source : List Char) : List (List Char) :=
  ((lines source).map trim).filter isKept

def toCss (source : String) : String :=
  match Verbatim.body? source.toList with
  | some body => String.ofList body
  | none => terminated ((keptLines source.toList).map fun line => String.ofList (cssLine line))

end EnglishPages.Style
