import EnglishPages.Html.Escape

/-!
Markup in pieces, before it is text. Tags hold their names and attributes, and texts are kept as
they were given: escaping is done here, once, when a piece is written. A line is a run of pieces at
some depth.
-/

namespace EnglishPages.Html

inductive Markup where
  | doctype
  | opening (tag : String) (attributes : List (String × String))
  | closing (tag : String)
  | text (content : String)
  | verbatim (content : String)
  deriving DecidableEq, Repr

namespace Markup

def attributeText (name value : String) : String :=
  " " ++ name ++ "=\"" ++ escape value ++ "\""

def render : Markup → String
  | doctype => "<!DOCTYPE html>"
  | opening tag attributes =>
      "<" ++ tag ++ String.join (attributes.map fun a => attributeText a.1 a.2) ++ ">"
  | closing tag => "</" ++ tag ++ ">"
  | text content => escape content
  | verbatim content => content

end Markup

structure Line where
  depth : Nat
  pieces : List Markup
  deriving DecidableEq, Repr

namespace Line

/-- The line as text, indented by the unit once for each level. A line with nothing on it is not
indented. -/
def render (unit : String) (l : Line) : String :=
  let content := String.join (l.pieces.map Markup.render)
  if content.isEmpty then "" else String.join (List.replicate l.depth unit) ++ content

end Line

def renderLines (unit : String) (ls : List Line) : String :=
  "\n".intercalate (ls.map (Line.render unit))

end EnglishPages.Html
