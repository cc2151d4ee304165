import EnglishPages.Text.Scan

/-!
Statements of the script dialect. A statement is one line, already without its comment and trimmed;
the first rule that fits the line says what it is. Keywords are read in any case, and a rule that
asks for a word takes all of it.

A line that opens a block keeps the parts of its header; any other line that is not blank is a
simple statement and keeps the code that it becomes.
-/

namespace EnglishPages.Script

open Text

inductive Statement where
  | blank
  | functionHeader (name parameters : String)
  | methodHeader (isStatic : Bool) (name parameters : String)
  | explicitHeader (header : String)
  | classHeader (name : String)
  | eventHeader (target event parameters : String)
  | conditionalHeader (condition : String)
  | alternativeHeader
  | loopHeader (condition : String)
  | simple (code : String)
  deriving DecidableEq, Repr

namespace Statement

/-- Names that look like a method header when they are followed by parentheses, and never are. -/
def reservedCalls : List String :=
  ["log", "print", "call", "when", "loop", "return"]

def isReservedCall (name : List Char) : Bool :=
  reservedCalls.contains (String.ofList (name.map Char.toLower))

/-- The text inside the parentheses that follow, up to the first closing one, trimmed; nothing
when none follow. -/
def parameters (cs : List Char) : String :=
  match (after? '(' (trimStart cs)).bind (splitFirst? ')') with
  | some (inside, _) => String.ofList (trim inside)
  | none => ""

/-- The text from the parenthesis that follows to the last closing one, and what stands after
that. -/
def enclosed? (cs : List Char) : Option (List Char × List Char) :=
  (after? '(' (trimStart cs)).bind (splitLast? ')')

def condition? (keyword : String) (line : List Char) : Option String := do
  let rest ← afterKeyword? keyword.toList line
  let (inside, _) ← enclosed? rest
  if inside.isEmpty then none else some (String.ofList (trim inside))

def isTerminator (cs : List Char) : Bool :=
  match trimStart cs with
  | [] => true
  | [c] => c == ';'
  | _ => false

def withoutSemicolon (cs : List Char) : List Char :=
  trimEnd (if cs.getLast? = some ';' then cs.dropLast else cs)

def terminate (line : List Char) : String :=
  if endsWithAny [';', '{', '}'] line then String.ofList line else String.ofList line ++ ";"

def blank? (line : List Char) : Option Statement :=
  if line.isEmpty then some .blank else none

def function? (line : List Char) : Option Statement := do
  let rest ← afterLeading? "function" line
  let (name, rest) ← word? rest
  return .functionHeader (String.ofList name) (parameters rest)

def signature? (cs : List Char) : Option (List Char × List Char) := do
  let (name, rest) ← word? cs
  let rest ← after? '(' (trimStart rest)
  let (inside, rest) ← splitFirst? ')' rest
  if isBlankText rest then some (name, trim inside) else none

/-- A signature, `static` before it or not, whose name is no reserved call. Method headers are
read only where the enclosing block is a class or one of its methods. -/
def method? (inClassBody : Bool) (line : List Char) : Option Statement := do
  let asStatic := ((afterLeading? "static" line).bind signature?).map fun sig => (true, sig)
  let (isStatic, name, inside) ← asStatic.or ((signature? line).map fun sig => (false, sig))
  if inClassBody && !isReservedCall name then
    some (.methodHeader isStatic (String.ofList name) (String.ofList inside))
  else none

def explicit? (line : List Char) : Option Statement :=
  if endsWithAny ['{'] line then some (.explicitHeader (String.ofList line)) else none

def class? (line : List Char) : Option Statement := do
  let rest ← afterLeading? "class" line
  let (name, _) ← word? rest
  return .classHeader (String.ofList name)

def event? (line : List Char) : Option Statement := do
  let rest ← afterLeading? "on" line
  let (target, rest) ← word? rest
  let rest ← afterBlanks? rest
  let (event, rest) ← word? rest
  return .eventHeader (String.ofList target) (String.ofList event) (parameters rest)

def conditional? (line : List Char) : Option Statement :=
  (condition? "when" line).map .conditionalHeader

def alternative? (line : List Char) : Option Statement :=
  if afterKeyword? "else".toList line = some [] then some .alternativeHeader else none

def loop? (line : List Char) : Option Statement :=
  (condition? "loop" line).map .loopHeader

def declaration? (line : List Char) : Option Statement := do
  let rest ← (afterLeading? "var" line).or (afterLeading? "varibal" line)
  let (name, rest) ← word? rest
  match after? '=' (trimStart rest) with
  | none | some [] => some (.simple ("let " ++ String.ofList name ++ ";"))
  | some value =>
      some (.simple ("let " ++ String.ofList name ++ " = " ++
        String.ofList (withoutSemicolon (trim value)) ++ ";"))

def log? (line : List Char) : Option Statement := do
  let rest ← (afterKeyword? "log".toList line).or (afterKeyword? "print".toList line)
  let (inside, rest) ← enclosed? rest
  if !inside.isEmpty && isTerminator rest then
    some (.simple ("console.log(" ++ String.ofList (trim inside) ++ ");"))
  else none

def invocation? (cs : List Char) : Option Statement := do
  let (name, rest) ← word? cs
  let (inside, rest) ← enclosed? rest
  if isTerminator rest then
    some (.simple (String.ofList name ++ "(" ++ String.ofList inside ++ ");"))
  else none

def call? (line : List Char) : Option Statement :=
  ((afterLeading? "call" line).bind invocation?).or (invocation? line)

def return? (line : List Char) : Option Statement := do
  let value ← afterLeading? "return" line
  if value.isEmpty then none
  else some (.simple ("return " ++ String.ofList (withoutSemicolon (trim value)) ++ ";"))

def rules (inClassBody : Bool) : List (List Char → Option Statement) :=
  [blank?, function?, method? inClassBody, explicit?, class?, event?, conditional?, alternative?,
   loop?, declaration?, log?, call?, return?]

def read (inClassBody : Bool) (line : List Char) : Statement :=
  ((rules inClassBody).findSome? fun rule => rule line).getD (.simple (terminate line))

/-- A line that cannot stand inside a class: it starts with one of the words that open something
at the top level. After `function` and `class` the word need not end. -/
def isTopLevel (line : List Char) : Bool :=
  ["function", "class"].any (fun k => (afterKeyword? k.toList line).isSome) ||
    ["for", "on", "import", "add", "create"].any (fun k => (afterLeading? k line).isSome) ||
    ["requestanimationframe", "request animation frame"].any fun k =>
      match afterKeyword? k.toList line with
      | none => false
      | some [] => true
      | some (c :: _) => !isWord c

end Statement

end EnglishPages.Script
