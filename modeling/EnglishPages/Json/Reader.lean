import EnglishPages.Json.Value

/-!
Reading JSON, strictly by RFC 8259: no comments, no trailing commas, no leading zeros, no byte
order mark, no bare control characters in strings and no lone surrogates in escapes. A text is a
value exactly when `parse?` gives one.

The text is cut into tokens, and the tokens drive a machine whose stack holds the arrays and objects
that are still open. Both are plain recursions over a list, one over the characters and one over
the tokens.
-/

namespace EnglishPages.Json

inductive Token where
  | openArray
  | closeArray
  | openObject
  | closeObject
  | comma
  | colon
  | scalar (value : Json)

def isSpace (c : Char) : Bool :=
  c == ' ' || c == '\t' || c == '\n' || c == '\r'

def hexValue? (c : Char) : Option Nat :=
  if c.isDigit then some (c.toNat - 48)
  else if 'a' ≤ c && c ≤ 'f' then some (c.toNat - 87)
  else if 'A' ≤ c && c ≤ 'F' then some (c.toNat - 55)
  else none

def codeUnit? : List Char → Option (Nat × List Char)
  | a :: b :: c :: d :: rest => do
      let a ← hexValue? a
      let b ← hexValue? b
      let c ← hexValue? c
      let d ← hexValue? d
      return (((a * 16 + b) * 16 + c) * 16 + d, rest)
  | _ => none

def shortEscape? (c : Char) : Option Char :=
  if c = '"' || c = '\\' || c = '/' then some c
  else if c = 'b' then some (Char.ofNat 8)
  else if c = 'f' then some (Char.ofNat 12)
  else if c = 'n' then some '\n'
  else if c = 'r' then some '\r'
  else if c = 't' then some '\t'
  else none

/-- The character of an escape, given what follows the backslash, and the text after it. A high
surrogate needs a low one in an escape of its own right after it. -/
def escape? : List Char → Option (Char × List Char)
  | [] => none
  | 'u' :: rest => do
      let (unit, rest) ← codeUnit? rest
      if 0xD800 ≤ unit && unit < 0xDC00 then
        match rest with
        | '\\' :: 'u' :: rest =>
            let (low, rest) ← codeUnit? rest
            if 0xDC00 ≤ low && low < 0xE000 then
              return (Char.ofNat (0x10000 + (unit - 0xD800) * 0x400 + (low - 0xDC00)), rest)
            else none
        | _ => none
      else if 0xDC00 ≤ unit && unit < 0xE000 then none
      else return (Char.ofNat unit, rest)
  | c :: rest => do
      let c ← shortEscape? c
      return (c, rest)

/-- Drops `skip` characters of an escape that has been read, then reads a string up to its closing
quote: its value and the text after the quote. -/
def stringBody? : Nat → List Char → Option (List Char × List Char)
  | _, [] => none
  | skip + 1, _ :: cs => stringBody? skip cs
  | 0, c :: cs =>
      if c = '"' then some ([], cs)
      else if c = '\\' then do
        let (d, rest) ← escape? cs
        let (value, after) ← stringBody? (cs.length - rest.length) cs
        return (d :: value, after)
      else if c.toNat < 32 then none
      else do
        let (value, after) ← stringBody? 0 cs
        return (c :: value, after)

def whole? : List Char → Option (List Char × List Char)
  | [] => none
  | c :: cs =>
      if c = '0' then some (['0'], cs)
      else if c.isDigit then some (c :: cs.takeWhile Char.isDigit, cs.dropWhile Char.isDigit)
      else none

def fraction : List Char → List Char × List Char
  | '.' :: d :: cs =>
      if d.isDigit then ('.' :: d :: cs.takeWhile Char.isDigit, cs.dropWhile Char.isDigit)
      else ([], '.' :: d :: cs)
  | cs => ([], cs)

def exponent (cs : List Char) : List Char × List Char :=
  match cs with
  | e :: rest =>
      if e = 'e' || e = 'E' then
        let (sign, digits) : List Char × List Char := match rest with
          | '+' :: r => (['+'], r)
          | '-' :: r => (['-'], r)
          | r => ([], r)
        match digits.takeWhile Char.isDigit with
        | [] => ([], cs)
        | ds => (e :: sign ++ ds, digits.dropWhile Char.isDigit)
      else ([], cs)
  | [] => ([], [])

def naturalOf (digits : List Char) : Nat :=
  digits.foldl (fun n c => n * 10 + (c.toNat - 48)) 0

def number? (cs : List Char) : Option (Json × List Char) := do
  let (sign, rest) : List Char × List Char := match cs with
    | '-' :: r => (['-'], r)
    | r => ([], r)
  let (digits, rest) ← whole? rest
  let (frac, rest) := fraction rest
  let (expo, rest) := exponent rest
  if sign.isEmpty && frac.isEmpty && expo.isEmpty then
    return (natural (naturalOf digits), rest)
  else
    return (decimal (String.ofList (sign ++ digits ++ frac ++ expo)), rest)

def afterText? : List Char → List Char → Option (List Char)
  | [], cs => some cs
  | _ :: _, [] => none
  | d :: ds, c :: cs => if c = d then afterText? ds cs else none

def token? (cs : List Char) : Option (Token × List Char) :=
  match cs with
  | [] => none
  | c :: rest =>
      if c = '[' then some (.openArray, rest)
      else if c = ']' then some (.closeArray, rest)
      else if c = '{' then some (.openObject, rest)
      else if c = '}' then some (.closeObject, rest)
      else if c = ',' then some (.comma, rest)
      else if c = ':' then some (.colon, rest)
      else if c = '"' then
        (stringBody? 0 rest).map fun (value, rest) =>
          (.scalar (string (String.ofList value)), rest)
      else if c = 't' then
        (afterText? "true".toList cs).map fun rest => (.scalar (bool true), rest)
      else if c = 'f' then
        (afterText? "false".toList cs).map fun rest => (.scalar (bool false), rest)
      else if c = 'n' then
        (afterText? "null".toList cs).map fun rest => (.scalar null, rest)
      else (number? cs).map fun (value, rest) => (.scalar value, rest)

/-- Drops `skip` characters of a token that has been read, then reads the tokens of the text. -/
def tokensFrom? : Nat → List Char → Option (List Token)
  | _, [] => some []
  | skip + 1, _ :: cs => tokensFrom? skip cs
  | 0, c :: cs =>
      if isSpace c then tokensFrom? 0 cs
      else do
        let (token, rest) ← token? (c :: cs)
        let tokens ← tokensFrom? (cs.length - rest.length) cs
        return token :: tokens

/-- An array or object that is still open: what it holds so far, last first, and for an object the
key whose value is being read. -/
inductive Frame where
  | array (items : List Json)
  | object (members : List (String × Json)) (key : String)

inductive State where
  | value (stack : List Frame)
  | firstItem (stack : List Frame)
  | firstKey (stack : List Frame)
  | nextKey (members : List (String × Json)) (stack : List Frame)
  | colon (members : List (String × Json)) (key : String) (stack : List Frame)
  | complete (value : Json) (stack : List Frame)

def State.readValue (stack : List Frame) : Token → Option State
  | .openArray => some (.firstItem stack)
  | .openObject => some (.firstKey stack)
  | .scalar v => some (.complete v stack)
  | _ => none

def State.step : State → Token → Option State
  | .value stack, token => readValue stack token
  | .firstItem stack, .closeArray => some (.complete (array []) stack)
  | .firstItem stack, token => readValue (.array [] :: stack) token
  | .firstKey stack, .closeObject => some (.complete (object []) stack)
  | .firstKey stack, .scalar (string key) => some (.colon [] key stack)
  | .nextKey members stack, .scalar (string key) => some (.colon members key stack)
  | .colon members key stack, .colon => some (.value (.object members key :: stack))
  | .complete v (.array items :: stack), .comma => some (.value (.array (v :: items) :: stack))
  | .complete v (.array items :: stack), .closeArray =>
      some (.complete (array (v :: items).reverse) stack)
  | .complete v (.object members key :: stack), .comma =>
      some (.nextKey ((key, v) :: members) stack)
  | .complete v (.object members key :: stack), .closeObject =>
      some (.complete (object ((key, v) :: members).reverse) stack)
  | _, _ => none

def parse? (text : String) : Option Json := do
  let tokens ← tokensFrom? 0 text.toList
  match ← tokens.foldlM State.step (.value []) with
  | .complete v [] => some v
  | _ => none

end EnglishPages.Json
