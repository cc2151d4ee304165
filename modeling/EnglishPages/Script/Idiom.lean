import EnglishPages.Text.Scan

/-!
Idioms of the script dialect: English phrases that stand for an expression or a loop header. They
are replaced in the whole text, before it is cut into lines, so the white space inside a phrase may
contain line ends.

Each idiom is applied to the text that the ones before it have produced. Phrases are taken from
left to right and do not overlap, and a phrase may start inside a word.
-/

namespace EnglishPages.Script

open Text

/-- A phrase at the front of a text: what replaces it and the text after it. -/
abbrev Idiom := List Char → Option (List Char × List Char)

def quoted? (cs : List Char) : Option (List Char × List Char) :=
  let isQuote (c : Char) := c == '"' || c == '\''
  match cs with
  | q :: rest =>
      if isQuote q then
        match run? (fun c => !isQuote c) rest with
        | some (inside, _ :: rest) => some (inside, rest)
        | _ => none
      else none
  | [] => none

def lookup (phrase method : String) : Idiom := fun cs => do
  let rest ← afterLeading? phrase cs
  let (inside, rest) ← quoted? rest
  return (("document." ++ method ++ "(\"").toList ++ inside ++ "\")".toList, rest)

def animationFrame (phrase : String) : Idiom := fun cs => do
  let rest ← afterLeading? phrase cs
  let (name, rest) ← word? rest
  return ("requestAnimationFrame(".toList ++ name ++ ")".toList, rest)

/-- `for <name> from <digits> to <digits>`, as the header of a loop over the numbers between, ends
included. -/
def countingLoop : Idiom := fun cs => do
  let rest ← afterLeading? "for" cs
  let (name, rest) ← word? rest
  let rest ← afterBlanks? rest
  let rest ← afterLeading? "from" rest
  let (low, rest) ← digits? rest
  let rest ← afterBlanks? rest
  let rest ← afterLeading? "to" rest
  let (high, rest) ← digits? rest
  return ("for (let ".toList ++ name ++ " = ".toList ++ low ++ "; ".toList ++ name ++
    " <= ".toList ++ high ++ "; ".toList ++ name ++ "++) \x7b".toList, rest)

def idioms : List Idiom :=
  [lookup "get element by id" "getElementById",
   lookup "get element by selector" "querySelector",
   animationFrame "requestanimationframe",
   animationFrame "request animation frame",
   countingLoop]

/-- Drops `skip` characters, then replaces every phrase. -/
def replaceFrom (idiom : Idiom) : Nat → List Char → List Char
  | _, [] => []
  | skip + 1, _ :: cs => replaceFrom idiom skip cs
  | 0, c :: cs =>
      match idiom (c :: cs) with
      | some (out, rest) => out ++ replaceFrom idiom (cs.length - rest.length) cs
      | none => c :: replaceFrom idiom 0 cs

def replaceAll (idiom : Idiom) (cs : List Char) : List Char :=
  replaceFrom idiom 0 cs

def expandIdioms (cs : List Char) : List Char :=
  idioms.foldl (fun text idiom => replaceAll idiom text) cs

theorem replaceFrom_eq_drop (idiom : Idiom) (skip : Nat) (cs : List Char) :
    replaceFrom idiom skip cs = replaceAll idiom (cs.drop skip) := by
  induction skip generalizing cs with
  | zero => rfl
  | succ n ih =>
      cases cs with
      | nil => rfl
      | cons c cs => simpa [replaceFrom] using ih cs

theorem replaceAll_cons_of_none {idiom : Idiom} {c : Char} {cs : List Char}
    (h : idiom (c :: cs) = none) :
    replaceAll idiom (c :: cs) = c :: replaceAll idiom cs := by
  simp [replaceAll, replaceFrom, h]

end EnglishPages.Script
