import EnglishPages.Path
import EnglishPages.Script.JavaScript
import EnglishPages.Style

/-!
The two dialects that a page can import, told apart by the extension of a file. Each has an
extension for its sources, one for its output, and a compiler from the one to the other.
-/

namespace EnglishPages

inductive Dialect where
  | script
  | style
  deriving DecidableEq, Repr, Inhabited

namespace Dialect

def all : List Dialect := [script, style]

def sourceExtension : Dialect → String
  | script => "seng"
  | style => "ceng"

def outputExtension : Dialect → String
  | script => "js"
  | style => "css"

def ofExtension? (extension : String) : Option Dialect :=
  all.find? (·.sourceExtension == extension)

def ofPath? (p : Path) : Option Dialect :=
  p.extension?.bind ofExtension?

def sidecar (d : Dialect) (source : Path) : Path :=
  source.withExtension d.outputExtension

def compile : Dialect → String → String
  | script, source => Script.toJavaScript source
  | style, source => Style.toCss source

theorem ofExtension?_sourceExtension (d : Dialect) :
    ofExtension? d.sourceExtension = some d := by
  cases d <;> decide

theorem ofPath?_eq_some_iff {p : Path} {d : Dialect} :
    ofPath? p = some d ↔ p.extension? = some d.sourceExtension := by
  rw [ofPath?, Option.bind_eq_some_iff]
  constructor
  · rintro ⟨e, he, hd⟩
    rw [he, beq_iff_eq.1 (List.find?_some (p := fun d : Dialect => d.sourceExtension == e) hd)]
  · intro he
    exact ⟨_, he, ofExtension?_sourceExtension d⟩

end Dialect

end EnglishPages
