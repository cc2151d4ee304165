import EnglishPages.FileError
import EnglishPages.Path

/-!
Where the sources of imports come from. A loader gives the text of a path or the reason why it has
none; a set of sources in memory is one, and so are files that have been read beforehand.
-/

namespace EnglishPages

inductive LoadError where
  | unknown (path : Path)
  | unreadable (path : Path) (cause : FileError)
  deriving DecidableEq, Repr

def LoadError.message : LoadError → String
  | unknown path => "no source for " ++ path.text
  | unreadable path cause => "failed to read " ++ path.text ++ ": " ++ cause.message

abbrev Loader := Path → Except LoadError String

structure Sources where
  entries : List (Path × String)

namespace Sources

def empty : Sources := ⟨[]⟩

def insert (s : Sources) (path : Path) (source : String) : Sources :=
  ⟨(path, source) :: s.entries.filter fun e => !e.1.same path⟩

def get? (s : Sources) (path : Path) : Option String :=
  (s.entries.find? fun e => e.1.same path).map (·.2)

def ofList (entries : List (Path × String)) : Sources :=
  entries.foldl (fun s e => s.insert e.1 e.2) empty

def loader (s : Sources) : Loader := fun path =>
  match s.get? path with
  | some source => .ok source
  | none => .error (.unknown path)

end Sources

def Loader.ofReads (reads : List (Path × Except FileError String)) : Loader := fun path =>
  match reads.find? fun r => r.1 == path with
  | some (_, .ok source) => .ok source
  | some (_, .error cause) => .error (.unreadable path cause)
  | none => .error (.unknown path)

end EnglishPages
