/-!
JSON values. A number is kept in one of two ways: a literal of digits alone as the natural number
that it names, any other literal as it is written. No value is rounded, and the two sorts never
mix, so a reader that asks for a natural number accepts neither `2.0` nor `-0`.

An object is its members in the order of the text.
-/

namespace EnglishPages

inductive Json where
  | null
  | bool (value : Bool)
  | natural (value : Nat)
  | decimal (literal : String)
  | string (value : String)
  | array (items : List Json)
  | object (members : List (String × Json))
  deriving Repr, Inhabited

namespace Json

def asBool? : Json → Option Bool
  | bool b => some b
  | _ => none

/-- A natural number that fits in 64 bits. -/
def asWord? : Json → Option Nat
  | natural n => if n < UInt64.size then some n else none
  | _ => none

def asString? : Json → Option String
  | string s => some s
  | _ => none

def asArray? : Json → Option (List Json)
  | array items => some items
  | _ => none

def asObject? : Json → Option (List (String × Json))
  | object members => some members
  | _ => none

def member? (key : String) : Json → Option Json
  | object members => members.lookup key
  | _ => none

def repeats (fields : List String) : List (String × Json) → Bool
  | [] => false
  | (key, _) :: members =>
      (fields.contains key && (members.lookup key).isSome) || repeats fields members

/-- A record as an object, where no field is repeated. It may be given as an array of its fields
too, which must then have every one of them, in their order. -/
def record? (fields : List String) : Json → Option Json
  | object members => if repeats fields members then none else some (object members)
  | array items =>
      if items.length = fields.length then some (object (fields.zip items)) else none
  | _ => none

def ofStrings (items : List String) : Json :=
  array (items.map string)

def ofOption (f : α → Json) : Option α → Json
  | some a => f a
  | none => null

def optional (key : String) (f : α → Json) : Option α → List (String × Json)
  | some a => [(key, f a)]
  | none => []

mutual

def sorted : Json → Json
  | array items => array (sortedItems items)
  | object members => object ((sortedMembers members).mergeSort fun a b => a.1 ≤ b.1)
  | scalar => scalar

def sortedItems : List Json → List Json
  | [] => []
  | item :: items => sorted item :: sortedItems items

def sortedMembers : List (String × Json) → List (String × Json)
  | [] => []
  | (key, value) :: members => (key, sorted value) :: sortedMembers members

end

end Json

end EnglishPages
