import EnglishPages.Json.Value

/-!
The grammar of JSON, production by production as RFC 8259 gives it, with what each text stands for.

Between tokens there may be white space. A string stands for Unicode text: a character stands for
itself or is escaped, by a letter or sign, by its code in four hexadecimal digits, or by those of its
two surrogates. A number is a natural number if it is written with digits alone; any other is kept as
it is written. An array or an object stands for its items or members in their order.

The value that a text stands for is on the left and the text on the right, so that a production
reads as the rule for writing the value.
-/

namespace EnglishPages.Json

def IsSpaces (w : List Char) : Prop :=
  ∀ c ∈ w, c ∈ [' ', '\t', '\n', '\r']

def shortEscapes : List (Char × Nat) :=
  [('"', 0x22), ('\\', 0x5C), ('/', 0x2F), ('b', 0x08), ('f', 0x0C), ('n', 0x0A), ('r', 0x0D),
   ('t', 0x09)]

def IsHexDigit (value : Nat) (c : Char) : Prop :=
  "0123456789abcdef".toList[value]? = some c.toLower

inductive CodeUnit : Nat → List Char → Prop
  | digits {x y z w : Nat} {a b c d : Char} (ha : IsHexDigit x a) (hb : IsHexDigit y b)
      (hc : IsHexDigit z c) (hd : IsHexDigit w d) :
      CodeUnit (x * 0x1000 + y * 0x100 + z * 0x10 + w) [a, b, c, d]

/-- A text as it is written between the quotes of a string. -/
inductive StringText : List Char → List Char → Prop
  | nil : StringText [] []
  | plain {c : Char} {s cs : List Char} (hcontrol : 0x20 ≤ c.toNat) (hquote : c ≠ '"')
      (hslash : c ≠ '\\') (h : StringText s cs) : StringText (c :: s) (c :: cs)
  | short {c e : Char} {s cs : List Char} (he : (e, c.toNat) ∈ shortEscapes)
      (h : StringText s cs) : StringText (c :: s) ('\\' :: e :: cs)
  | code {c : Char} {ds s cs : List Char} (hds : CodeUnit c.toNat ds) (h : StringText s cs) :
      StringText (c :: s) ('\\' :: 'u' :: (ds ++ cs))
  | surrogates {c : Char} {high low : Nat} {ds es s cs : List Char}
      (hhigh : 0xD800 ≤ high ∧ high ≤ 0xDBFF) (hlow : 0xDC00 ≤ low ∧ low ≤ 0xDFFF)
      (hc : c.toNat = 0x10000 + (high - 0xD800) * 0x400 + (low - 0xDC00))
      (hds : CodeUnit high ds) (hes : CodeUnit low es) (h : StringText s cs) :
      StringText (c :: s) ('\\' :: 'u' :: (ds ++ '\\' :: 'u' :: (es ++ cs)))

structure IsDigits (ds : List Char) : Prop where
  ne_nil : ds ≠ []
  digits : ∀ c ∈ ds, c.isDigit = true

structure IsWhole (ds : List Char) : Prop extends IsDigits ds where
  leading : ds.head? = some '0' → ds = ['0']

inductive IsFraction : List Char → Prop
  | absent : IsFraction []
  | digits {ds : List Char} (hds : IsDigits ds) : IsFraction ('.' :: ds)

inductive IsExponent : List Char → Prop
  | absent : IsExponent []
  | digits {mark : Char} {sign ds : List Char} (hmark : mark = 'e' ∨ mark = 'E')
      (hsign : sign = [] ∨ sign = ['+'] ∨ sign = ['-']) (hds : IsDigits ds) :
      IsExponent (mark :: (sign ++ ds))

inductive ScalarText : Json → List Char → Prop
  | nullWord : ScalarText null "null".toList
  | trueWord : ScalarText (bool true) "true".toList
  | falseWord : ScalarText (bool false) "false".toList
  | natural {ds : List Char} (hds : IsWhole ds) : ScalarText (natural (Nat.ofDigitChars 10 ds 0)) ds
  | decimal {sign ds frac expo : List Char} (hsign : sign = [] ∨ sign = ['-']) (hds : IsWhole ds)
      (hfrac : IsFraction frac) (hexpo : IsExponent expo)
      (hmarked : ¬ (sign = [] ∧ frac = [] ∧ expo = [])) :
      ScalarText (decimal (String.ofList (sign ++ (ds ++ (frac ++ expo)))))
        (sign ++ (ds ++ (frac ++ expo)))
  | string {s cs : List Char} (h : StringText s cs) :
      ScalarText (string (String.ofList s)) ('"' :: (cs ++ ['"']))

inductive Phrase where
  | value (v : Json)
  | item (v : Json)
  | items (vs : List Json)
  | member (m : String × Json)
  | members (ms : List (String × Json))

inductive Derives : Phrase → List Char → Prop
  | scalar {v : Json} {cs : List Char} (h : ScalarText v cs) : Derives (.value v) cs
  | emptyArray {w : List Char} (hw : IsSpaces w) :
      Derives (.value (array [])) ('[' :: (w ++ [']']))
  | array {vs : List Json} {cs : List Char} (h : Derives (.items vs) cs) :
      Derives (.value (array vs)) ('[' :: (cs ++ [']']))
  | emptyObject {w : List Char} (hw : IsSpaces w) :
      Derives (.value (object [])) ('{' :: (w ++ ['}']))
  | object {ms : List (String × Json)} {cs : List Char} (h : Derives (.members ms) cs) :
      Derives (.value (object ms)) ('{' :: (cs ++ ['}']))
  | item {v : Json} {w cs w' : List Char} (hw : IsSpaces w) (h : Derives (.value v) cs)
      (hw' : IsSpaces w') : Derives (.item v) (w ++ (cs ++ w'))
  | lastItem {v : Json} {cs : List Char} (h : Derives (.item v) cs) : Derives (.items [v]) cs
  | nextItem {v : Json} {vs : List Json} {cs ds : List Char} (h : Derives (.item v) cs)
      (hmore : Derives (.items vs) ds) : Derives (.items (v :: vs)) (cs ++ ',' :: ds)
  | member {v : Json} {w key ks w' cs : List Char} (hw : IsSpaces w) (hkey : StringText key ks)
      (hw' : IsSpaces w') (h : Derives (.item v) cs) :
      Derives (.member (String.ofList key, v)) (w ++ ('"' :: (ks ++ '"' :: (w' ++ ':' :: cs))))
  | lastMember {m : String × Json} {cs : List Char} (h : Derives (.member m) cs) :
      Derives (.members [m]) cs
  | nextMember {m : String × Json} {ms : List (String × Json)} {cs ds : List Char}
      (h : Derives (.member m) cs) (hmore : Derives (.members ms) ds) :
      Derives (.members (m :: ms)) (cs ++ ',' :: ds)

/-- A JSON text: a value with white space around it. -/
def IsText (v : Json) (text : String) : Prop :=
  Derives (.item v) text.toList

end EnglishPages.Json
