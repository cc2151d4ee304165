import EnglishPages.Dialect

/-!
The arguments of the command line. Options for the format of the output and for the settings may
stand before the command and after it, and after it they win; all other options belong to a
command. An option is given once at each place, its value in the same argument or in the next one.
After `--` every argument is taken as it is.

Arguments are read from left to right, and the first thing that is wrong, or that asks for help or
for the version, ends the reading.
-/

namespace EnglishPages.Command

inductive Format where
  | pretty
  | json
  deriving DecidableEq, Repr

def Format.ofName? (name : String) : Option Format :=
  if name = "pretty" then some .pretty else if name = "json" then some .json else none

inductive Name where
  | build
  | compile (dialect : Dialect)
  | tokens
  | ast
  | explain
  | help
  deriving DecidableEq, Repr

namespace Name

def all : List Name :=
  [build, compile .script, compile .style, tokens, ast, explain, help]

def word : Name → String
  | build => "build"
  | compile d => d.sourceExtension
  | tokens => "tokens"
  | ast => "ast"
  | explain => "explain"
  | help => "help"

def ofWord? (word : String) : Option Name :=
  all.find? (·.word == word)

def hasOut : Name → Bool
  | build | compile _ => true
  | _ => false

def hasStdout : Name → Bool
  | compile _ => true
  | _ => false

end Name

inductive Action where
  | build (file : Path) (out : Option Path)
  | compile (dialect : Dialect) (file : Path) (out : Option Path) (toStdout : Bool)
  | tokens (file : Path)
  | ast (file : Path)
  | explain (id : String)
  deriving DecidableEq, Repr

structure Invocation where
  format : Option Format
  config : Option Path
  action : Action
  deriving DecidableEq, Repr

inductive UsageError where
  | unexpected (argument : String)
  | unknownCommand (word : String)
  | missingCommand
  | missingArgument
  | missingValue (option : String)
  | invalidValue (option value : String)
  | repeated (option : String)
  | conflict
  deriving DecidableEq, Repr

def UsageError.message : UsageError → String
  | unexpected argument => "unexpected argument '" ++ argument ++ "' found"
  | unknownCommand word => "unrecognized subcommand '" ++ word ++ "'"
  | missingCommand => "a subcommand is required but one was not provided"
  | missingArgument => "a required argument was not provided"
  | missingValue option => "a value is required for '--" ++ option ++ "' but none was supplied"
  | invalidValue option value => "invalid value '" ++ value ++ "' for '--" ++ option ++ "'"
  | repeated option => "the argument '--" ++ option ++ "' cannot be used multiple times"
  | conflict => "the argument '--stdout' cannot be used with '--out'"

inductive Stop where
  | help
  | version
  | usage (error : UsageError)
  deriving DecidableEq, Repr

inductive Argument where
  | escape
  | long (name : String) (value : Option String)
  | short (letter : Char) (attached : List Char)
  | plain (text : String)
  deriving DecidableEq, Repr

/-- The form of an argument. A hyphen alone is an ordinary text. -/
def Argument.ofText (text : String) : Argument :=
  match text.toList with
  | '-' :: '-' :: [] => .escape
  | '-' :: '-' :: rest =>
      match Text.splitFirst? '=' rest with
      | some (name, value) => .long (String.ofList name) (some (String.ofList value))
      | none => .long (String.ofList rest) none
  | '-' :: letter :: attached => .short letter attached
  | _ => .plain text

structure Options where
  output : Option Format := none
  config : Option Path := none
  out : Option Path := none
  stdout : Bool := false

namespace Options

def pathValue (option value : String) : Except Stop Path :=
  if value.isEmpty then .error (.usage (.invalidValue option value)) else .ok ⟨value⟩

def set (o : Options) (option value : String) : Except Stop Options :=
  match option with
  | "output" =>
      match o.output, Format.ofName? value with
      | none, some format => .ok { o with output := some format }
      | some _, _ => .error (.usage (.repeated option))
      | none, none => .error (.usage (.invalidValue option value))
  | "config" => do
      let path ← pathValue option value
      if o.config.isSome then .error (.usage (.repeated option))
      else .ok { o with config := some path }
  | "out" => do
      let path ← pathValue option value
      if o.out.isSome then .error (.usage (.repeated option))
      else .ok { o with out := some path }
  | _ => .error (.usage (.unexpected option))

end Options

structure Reading where
  command : Option Name := none
  outer : Options := {}
  inner : Options := {}
  pending : Option String := none
  operand : Option String := none
  escaped : Bool := false

namespace Reading

def takesValue (r : Reading) (option : String) : Bool :=
  option == "output" || option == "config" || (option == "out" && r.command.any Name.hasOut)

def set (r : Reading) (option value : String) : Except Stop Reading := do
  if r.command.isSome then return { r with inner := ← r.inner.set option value, pending := none }
  else return { r with outer := ← r.outer.set option value, pending := none }

def plain (r : Reading) (text : String) : Except Stop Reading :=
  match r.command, r.operand with
  | none, _ =>
      match Name.ofWord? text with
      | some name => .ok { r with command := some name }
      | none => .error (.usage (.unknownCommand text))
  | some .explain, none => .ok { r with operand := some text }
  | some _, none =>
      if text.isEmpty then .error (.usage (.invalidValue "file" text))
      else .ok { r with operand := some text }
  | some _, some _ => .error (.usage (.unexpected text))

def long (r : Reading) (name : String) (value : Option String) : Except Stop Reading :=
  match value with
  | some value =>
      if r.takesValue name then r.set name value else .error (.usage (.unexpected ("--" ++ name)))
  | none =>
      if r.takesValue name then .ok { r with pending := some name }
      else if name = "help" then .error .help
      else if name = "version" && r.command.isNone then .error .version
      else if name = "stdout" && r.command.any Name.hasStdout then
        if r.inner.stdout then .error (.usage (.repeated name))
        else .ok { r with inner := { r.inner with stdout := true } }
      else .error (.usage (.unexpected ("--" ++ name)))

def short (r : Reading) (letter : Char) (attached : List Char) : Except Stop Reading :=
  if letter = 'h' then .error .help
  else if letter = 'V' && r.command.isNone then .error .version
  else if letter = 'o' && r.takesValue "out" then
    match attached with
    | [] => .ok { r with pending := some "out" }
    | '=' :: value => r.set "out" (String.ofList value)
    | value => r.set "out" (String.ofList value)
  else .error (.usage (.unexpected ("-" ++ String.ofList [letter])))

def step (r : Reading) (text : String) : Except Stop Reading :=
  match r.pending, r.command with
  | some option, _ =>
      match Argument.ofText text with
      | .plain value => r.set option value
      | _ => .error (.usage (.missingValue option))
  | none, some .help =>
      match Name.ofWord? text, r.operand with
      | some _, none => .ok { r with operand := some text }
      | _, _ => .error (.usage (.unknownCommand text))
  | none, _ =>
      if r.escaped then
        if r.command.isSome then r.plain text else .error (.usage (.unexpected text))
      else
        match Argument.ofText text with
        | .escape => .ok { r with escaped := true }
        | .long name value => r.long name value
        | .short letter attached => r.short letter attached
        | .plain text => r.plain text

def action (r : Reading) : Except Stop Action :=
  match r.command, r.operand with
  | none, _ => .error (.usage .missingCommand)
  | some .help, _ => .error .help
  | some _, none => .error (.usage .missingArgument)
  | some .build, some file => .ok (.build ⟨file⟩ r.inner.out)
  | some (.compile d), some file =>
      if r.inner.stdout && r.inner.out.isSome then .error (.usage .conflict)
      else .ok (.compile d ⟨file⟩ r.inner.out r.inner.stdout)
  | some .tokens, some file => .ok (.tokens ⟨file⟩)
  | some .ast, some file => .ok (.ast ⟨file⟩)
  | some .explain, some id => .ok (.explain id)

def finish (r : Reading) : Except Stop Invocation :=
  match r.pending with
  | some option => .error (.usage (.missingValue option))
  | none => do
      let action ← r.action
      return ⟨r.inner.output.or r.outer.output, r.inner.config.or r.outer.config, action⟩

end Reading

def Invocation.parse (arguments : List String) : Except Stop Invocation := do
  let reading ← arguments.foldlM Reading.step {}
  reading.finish

end EnglishPages.Command
