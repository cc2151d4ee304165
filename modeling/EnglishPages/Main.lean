import EnglishPages.Command.Run

/-!
The program: its arguments, the files of the system, its streams and its exit code.
-/

namespace EnglishPages.Main

/-- Whether a code of the system is the given error number. The code may be the number or its
negative. -/
def isErrno (number : Nat) (code : UInt32) : Bool :=
  code.toNat == number || code.toNat + number == UInt32.size

def fileError (e : IO.Error) : FileError :=
  match e with
  | .noFileOrDirectory .. => .missing
  | .inappropriateType _ code _ => if isErrno 20 code then .notADirectory else .isADirectory
  | .invalidArgument _ code _ => if isErrno 36 code then .nameTooLong else .other (toString e)
  | .permissionDenied .. => .other "Permission denied (os error 13)"
  | _ => .other (toString e)

instance : Files IO where
  read p := do
    try
      match String.fromUTF8? (← IO.FS.readBinFile p.text) with
      | some text => return .ok text
      | none => return .error .notText
    catch e => return .error (fileError e)
  write p text := do
    try
      IO.FS.writeFile p.text text
      return .ok ()
    catch e => return .error (fileError e)

end EnglishPages.Main

def main (arguments : List String) : IO UInt32 := do
  let stdout ← IO.getStdout
  let stderr ← IO.getStderr
  let format : EnglishPages.Command.Format := if ← stdout.isTty then .pretty else .json
  let outcome ← EnglishPages.Command.run format arguments
  stdout.putStr outcome.stdout
  stderr.putStr outcome.stderr
  return outcome.exit.toUInt32
