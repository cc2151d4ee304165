import EnglishPages.Text.Lines
import EnglishPages.Text.Scan

/-!
Paths as texts. A path keeps the spelling that it was given, and its parts are read off from that:
two spellings of one path, such as `a//b/.` and `a/b`, are equal as paths and still print
differently. Reading goes by the segments between slashes; empty segments and single dots say
nothing, except for a leading slash, which makes the path absolute, and a leading dot.
-/

namespace EnglishPages

structure Path where
  text : String
  deriving DecidableEq, Repr, Inhabited

namespace Path

inductive Component where
  | root
  | current
  | parent
  | name (name : String)
  deriving DecidableEq, Repr

def segments (p : Path) : List String :=
  (Text.pieces '/' p.text.toList).map String.ofList

def ofSegments (segments : List String) : Path :=
  ⟨"/".intercalate segments⟩

def isAbsolute (p : Path) : Bool :=
  p.text.toList.head? == some '/'

def isVoid (segment : String) : Bool :=
  segment == "" || segment == "."

def component? (segment : String) : Option Component :=
  if isVoid segment then none
  else if segment == ".." then some .parent
  else some (.name segment)

def components (p : Path) : List Component :=
  match p.segments with
  | [] => []
  | first :: rest =>
      let lead : Option Component :=
        if p.isAbsolute then some .root
        else if first == "." then some .current
        else component? first
      lead.toList ++ rest.filterMap component?

/-- Equality of paths by their components: repeated slashes and inner dots do not tell paths apart,
but a leading dot and every pair of dots do. -/
def same (p q : Path) : Bool :=
  p.components == q.components

def join (p q : Path) : Path :=
  if q.isAbsolute then q
  else if p.text.isEmpty || p.text.toList.getLast? == some '/' then ⟨p.text ++ q.text⟩
  else ⟨p.text ++ "/" ++ q.text⟩

/-- A path that ends in a name: the segments before the name, the name, and the segments after it,
which say nothing. -/
structure Named where
  before : List String
  name : String
  after : List String
  deriving DecidableEq, Repr

/-- The final name of a path; a path that is empty, a root, or ends in dots alone has none. -/
def named? (p : Path) : Option Named :=
  let reversed := p.segments.reverse
  match reversed.dropWhile isVoid with
  | [] => none
  | name :: before =>
      if name == ".." then none
      else some ⟨before.reverse, name, (reversed.takeWhile isVoid).reverse⟩

/-- The stem of a name and its extension, which starts after the last dot. A dot in front starts no
extension. -/
def stemAndExtension (name : String) : String × Option String :=
  match Text.splitLast? '.' name.toList with
  | none | some ([], _) => (name, none)
  | some (stem, extension) => (String.ofList stem, some (String.ofList extension))

def extension? (p : Path) : Option String := do
  let named ← p.named?
  (stemAndExtension named.name).2

/-- The path with its extension replaced, or given one. What stands after the name is dropped, and
a path without a name stays as it is. The name `..x` is cut down to its two dots, which are no name
to put an extension on. -/
def withExtension (p : Path) (extension : String) : Path :=
  match p.named? with
  | none => p
  | some named =>
      let (stem, previous) := stemAndExtension named.name
      if stem == "." && previous.isSome && named.after.isEmpty then
        ofSegments (named.before ++ [".."])
      else ofSegments (named.before ++ [stem ++ "." ++ extension])

def directory (p : Path) : Path :=
  match p.named? with
  | none => p
  | some named =>
      match named.before with
      | [] => ⟨""⟩
      | first :: rest =>
          let kept := first :: (rest.reverse.dropWhile isVoid).reverse
          if kept == [""] then ⟨"/"⟩ else ofSegments kept

end Path

end EnglishPages
