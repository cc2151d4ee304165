import EnglishPages.Json.Value

/-!
JSON as text, on one line or laid out over several. In a string the quote, the backslash and the
control characters below the space are escaped, the latter by their short escapes where there are
such; every other character stands for itself.

The layout puts each item and each member on a line of its own, two spaces further in than the
bracket, and a space after the colon. An empty array or object stays on its line.
-/

namespace EnglishPages.Json

def hexDigit (n : Nat) : Char :=
  if n < 10 then Char.ofNat (48 + n) else Char.ofNat (87 + n)

def escapeChar (c : Char) : List Char :=
  if c = '"' then ['\\', '"']
  else if c = '\\' then ['\\', '\\']
  else if c.toNat = 8 then ['\\', 'b']
  else if c.toNat = 9 then ['\\', 't']
  else if c.toNat = 10 then ['\\', 'n']
  else if c.toNat = 12 then ['\\', 'f']
  else if c.toNat = 13 then ['\\', 'r']
  else if c.toNat < 32 then
    ['\\', 'u', '0', '0', hexDigit (c.toNat / 16), hexDigit (c.toNat % 16)]
  else [c]

def quote (s : String) : String :=
  String.ofList ('"' :: s.toList.flatMap escapeChar ++ ['"'])

def scalarText : Json → String
  | null => "null"
  | bool true => "true"
  | bool false => "false"
  | natural n => toString n
  | decimal literal => literal
  | string s => quote s
  | array _ => ""
  | object _ => ""

mutual

def compact : Json → String
  | array items => "[" ++ ",".intercalate (compactItems items) ++ "]"
  | object members => "\x7b" ++ ",".intercalate (compactMembers members) ++ "\x7d"
  | scalar => scalarText scalar

def compactItems : List Json → List String
  | [] => []
  | item :: items => compact item :: compactItems items

def compactMembers : List (String × Json) → List String
  | [] => []
  | (key, value) :: members => (quote key ++ ":" ++ compact value) :: compactMembers members

end

def bracketed (depth : Nat) (opening closing : String) (entries : List String) : String :=
  let newline (n : Nat) : String := "\n" ++ String.ofList (List.replicate (2 * n) ' ')
  if entries.isEmpty then opening ++ closing
  else opening ++ newline (depth + 1) ++ ("," ++ newline (depth + 1)).intercalate entries ++
    newline depth ++ closing

mutual

def prettyAt (depth : Nat) : Json → String
  | array items => bracketed depth "[" "]" (prettyItems (depth + 1) items)
  | object members => bracketed depth "\x7b" "\x7d" (prettyMembers (depth + 1) members)
  | scalar => scalarText scalar

def prettyItems (depth : Nat) : List Json → List String
  | [] => []
  | item :: items => prettyAt depth item :: prettyItems depth items

def prettyMembers (depth : Nat) : List (String × Json) → List String
  | [] => []
  | (key, value) :: members =>
      (quote key ++ ": " ++ prettyAt depth value) :: prettyMembers depth members

end

def pretty (value : Json) : String :=
  value.prettyAt 0

end EnglishPages.Json
