import EnglishPages.Diagnostic
import EnglishPages.Document
import EnglishPages.Sources

/-!
Resolving imports: every import that the document lists, and whose path has a dialect, is compiled
from the source that the loader gives for it. An import that cannot be loaded stays as it is, with a
warning, and so does one without a path; neither stops the others.
-/

namespace EnglishPages

namespace Import

def withoutPathWarning (i : Import) : Diagnostic :=
  .warning .importWithoutPath "import has no [path]; nothing will be emitted for it" i.span

def unreadableWarning (i : Import) (path : String) (full : Path) (d : Dialect) (e : LoadError) :
    Diagnostic :=
  { Diagnostic.warning .importUnreadable ("could not compile " ++ path ++ ": " ++ e.message) i.span
      with context := some [("dialect", d.sourceExtension), ("path", full.text)] }

def resolve (base : Path) (load : Loader) (i : Import) : Import × List Diagnostic :=
  match i.path with
  | none => (i, [i.withoutPathWarning])
  | some path =>
      match i.dialect? with
      | none => (i, [])
      | some d =>
          let full := base.join ⟨path⟩
          match load full with
          | .ok source =>
              ({ i with compiled := some (d.compile source), type := some d.sourceExtension }, [])
          | .error e => (i, [i.unreadableWarning path full d e])

end Import

namespace Node

def resolveImport (base : Path) (load : Loader) : Node → Node
  | importing i => importing (i.resolve base load).1
  | node => node

/-- The imports of a node of the top level resolved: itself, or those directly in a function. -/
def resolve (base : Path) (load : Loader) : Node → Node
  | function name children span =>
      function name (children.map (resolveImport base load)) span
  | node => node.resolveImport base load

def importWarnings (base : Path) (load : Loader) : Node → List Diagnostic
  | importing i => (i.resolve base load).2
  | _ => []

def resolutionWarnings (base : Path) (load : Loader) : Node → List Diagnostic
  | function _ children _ => children.flatMap (importWarnings base load)
  | node => node.importWarnings base load

end Node

namespace Document

def resolve (d : Document) (base : Path) (load : Loader) : Document :=
  ⟨d.nodes.map (Node.resolve base load)⟩

def resolutionWarnings (d : Document) (base : Path) (load : Loader) : List Diagnostic :=
  d.nodes.flatMap (Node.resolutionWarnings base load)

def sourcePaths (d : Document) (base : Path) : List Path :=
  d.imports.filterMap fun i =>
    match i.path, i.dialect? with
    | some path, some _ => some (base.join ⟨path⟩)
    | _, _ => none

end Document

end EnglishPages
