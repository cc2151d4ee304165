import EnglishPages.FileError
import EnglishPages.Path

/-!
File trees: what a file system holds, as data, seen from a working directory. A path is followed
segment by segment, as an operating system does it: everything but the last name must be a directory
that is there, also what a single dot, a double dot or a slash stands after. There are no links.

A place is named from the root, so that two paths lead to the same file exactly when they lead to the
same place, however they are spelled. The working directory and those above it are always there.
-/

namespace EnglishPages

/-- A place in a file tree: the names on the way to it from the root, last first. -/
structure Location where
  names : List String
  deriving DecidableEq, Repr

namespace Location

def root : Location := ⟨[]⟩

def child (l : Location) (name : String) : Location := ⟨name :: l.names⟩

def parent (l : Location) : Location := ⟨l.names.tail⟩

def leadsTo (l other : Location) : Bool := l.names.isSuffixOf other.names

def relativeTo? (l directory : Location) : Option String :=
  if directory.leadsTo l then
    let below := l.names.take (l.names.length - directory.names.length)
    some ("/".intercalate below.reverse)
  else none

end Location

inductive Entry where
  | file (bytes : ByteArray)
  | directory

def Entry.holds (bytes : ByteArray) : Entry → Bool
  | file old => old.data == bytes.data
  | directory => false

structure FileTree where
  working : Location
  entries : List (Location × Entry)

namespace FileTree

def empty : FileTree := ⟨⟨["work"]⟩, []⟩

def entry? (t : FileTree) (l : Location) : Option Entry :=
  if l.leadsTo t.working then some .directory else t.entries.lookup l

def put (t : FileTree) (l : Location) (e : Entry) : FileTree :=
  { t with entries := (l, e) :: t.entries.filter fun old => old.1 != l }

def makeDirectory (t : FileTree) : List String → FileTree
  | [] => t
  | name :: names =>
      let t := t.makeDirectory names
      let l : Location := ⟨name :: names ++ t.working.names⟩
      if (t.entry? l).isSome then t else t.put l .directory

def install (t : FileTree) (path : Path) (e : Entry) : FileTree :=
  match (path.segments.filter fun s => !Path.isVoid s).reverse with
  | [] => t
  | name :: names =>
      let made := t.makeDirectory names
      let l : Location := ⟨name :: names ++ t.working.names⟩
      match e, made.entry? l with
      | .directory, some .directory => made
      | _, _ => made.put l e

def maxNameLength : Nat := 255

/-- One more than the length of the longest path, in bytes. -/
def maxPathLength : Nat := 4096

def follow (t : FileTree) (l : Location) : List String → Except FileError Location
  | [] => .ok l
  | segment :: rest =>
      match t.entry? l with
      | none => .error .missing
      | some (.file _) => .error .notADirectory
      | some .directory =>
          if Path.isVoid segment then t.follow l rest
          else if segment = ".." then t.follow l.parent rest
          else if maxNameLength < segment.utf8ByteSize then .error .nameTooLong
          else t.follow (l.child segment) rest

/-- A path that can be asked for: one without a zero character, not empty and not too long. It is
judged as a whole, before any directory is looked into. -/
def checkPath (p : Path) : Except FileError Unit :=
  if p.text.toList.contains (Char.ofNat 0) then .error .nulInName
  else if p.text.isEmpty then .error .missing
  else if maxPathLength ≤ p.text.utf8ByteSize then .error .nameTooLong
  else .ok ()

def start (t : FileTree) (p : Path) : Location :=
  if p.isAbsolute then .root else t.working

def locate (t : FileTree) (p : Path) : Except FileError Location := do
  checkPath p
  t.follow (t.start p) p.segments

def read (t : FileTree) (p : Path) : Except FileError ByteArray := do
  match t.entry? (← t.locate p) with
  | none => .error .missing
  | some .directory => .error .isADirectory
  | some (.file bytes) => .ok bytes

def readText (t : FileTree) (p : Path) : Except FileError String := do
  match String.fromUTF8? (← t.read p) with
  | some text => .ok text
  | none => .error .notText

def endsInSlash (p : Path) : Bool :=
  p.text.toList.getLast? == some '/'

def segmentsBeforeLast (p : Path) : List String :=
  ((p.segments.reverse.dropWhile (· == "")).drop 1).reverse

/-- Why a path that ends in a slash cannot be written to. The directory that its last segment stands
in must be there; the last segment itself is not looked at, so it may be missing, a file, or too
long for a name. -/
def slashRefusal (t : FileTree) (p : Path) : FileError :=
  match checkPath p, t.follow (t.start p) (segmentsBeforeLast p ++ [""]) with
  | .error e, _ | .ok (), .error e => e
  | .ok (), .ok _ => .isADirectory

def write (t : FileTree) (p : Path) (bytes : ByteArray) : Except FileError FileTree := do
  if endsInSlash p then .error (t.slashRefusal p)
  else
    let l ← t.locate p
    match t.entry? l with
    | some .directory => .error .isADirectory
    | _ => .ok (t.put l (.file bytes))

def changedFiles (t before : FileTree) : List (String × ByteArray) :=
  let changed := t.entries.filterMap fun (l, e) =>
    match l.relativeTo? t.working, e with
    | some path, .file bytes =>
        if (before.entry? l).any (Entry.holds bytes) then none else some (path, bytes)
    | _, _ => none
  changed.mergeSort fun a b => a.1 ≤ b.1

end FileTree

end EnglishPages
