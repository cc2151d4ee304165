import EnglishPages.Compilation
import EnglishPages.FileTree

/-!
Work that reads and writes files, in any monad that can. A file tree as state is one such monad, so
what a command does to files is a function on file trees.

Imports are read before a page is compiled: the document says which files they are, and compiling
itself reads nothing.
-/

namespace EnglishPages

class Files (m : Type → Type) where
  read : Path → m (Except FileError String)
  write : Path → String → m (Except FileError Unit)

instance : Files (StateM FileTree) where
  read p := fun t => (t.readText p, t)
  write p text := fun t =>
    match t.write p text.toUTF8 with
    | .ok t' => (.ok (), t')
    | .error e => (.error e, t)

variable {m : Type → Type} [Monad m] [Files m]

namespace Config

def load (path : Path) : m (Except ConfigError Config) := do
  match ← Files.read path with
  | .ok text => return parse text
  | .error cause => return .error (.unreadable path cause)

def isAbsence : FileError → Bool
  | .missing | .notADirectory | .isADirectory | .nameTooLong | .nulInName => true
  | .notText | .other _ => false

def discover (directory : Path) : m (Except ConfigError Config) := do
  let path := directory.join ⟨fileName⟩
  match ← Files.read path with
  | .ok text => return parse text
  | .error cause =>
      if isAbsence cause then return .ok default else return .error (.unreadable path cause)

end Config

def readAll : List Path → m (List (Path × Except FileError String))
  | [] => return []
  | path :: paths => do
      let result ← Files.read path
      return (path, result) :: (← readAll paths)

def compileFiles (source : String) (base : Path) (config : Config) :
    m (Except ParseError Compilation) := do
  match Document.parse source with
  | .error e => return .error e
  | .ok d =>
      let reads ← if config.inlineImports then readAll (d.sourcePaths base) else pure []
      return .ok (d.compile base (Loader.ofReads reads) config)

end EnglishPages
