import EnglishPages.Text.Blank
import EnglishPages.Text.Caseless
import EnglishPages.Text.DecimalDigit
import EnglishPages.Text.WordChar

/-!
Reading from the front of a text: runs of white space, words, digits, and cuts at a given
character. A reader takes as much as it can and returns what it took with what is left; it fails
when there is nothing to take.
-/

namespace EnglishPages.Text

def afterBlanks? : List Char → Option (List Char)
  | [] => none
  | c :: cs => if isBlank c then some (trimStart cs) else none

def afterLeading? (keyword : String) (cs : List Char) : Option (List Char) := do
  let rest ← afterKeyword? keyword.toList cs
  afterBlanks? rest

def run? (p : Char → Bool) (cs : List Char) : Option (List Char × List Char) :=
  match cs.takeWhile p with
  | [] => none
  | w => some (w, cs.dropWhile p)

def word? (cs : List Char) : Option (List Char × List Char) :=
  run? isWord cs

def digits? (cs : List Char) : Option (List Char × List Char) :=
  run? isDecimalDigit cs

def splitFirst? (c : Char) : List Char → Option (List Char × List Char)
  | [] => none
  | d :: ds =>
      if d = c then some ([], ds) else (splitFirst? c ds).map fun (a, b) => (d :: a, b)

def splitLast? (c : Char) : List Char → Option (List Char × List Char)
  | [] => none
  | d :: ds =>
      match splitLast? c ds with
      | some (a, b) => some (d :: a, b)
      | none => if d = c then some ([], ds) else none

def after? (c : Char) : List Char → Option (List Char)
  | [] => none
  | d :: ds => if d = c then some ds else none

def endsWithAny (ends : List Char) (cs : List Char) : Bool :=
  match cs.getLast? with
  | some c => ends.contains c
  | none => false

theorem run?_append {p : Char → Bool} {cs w rest : List Char} (h : run? p cs = some (w, rest)) :
    cs = w ++ rest := by
  unfold run? at h
  split at h
  · simp at h
  · simp only [Option.some.injEq, Prod.mk.injEq] at h
    obtain ⟨rfl, rfl⟩ := h
    simp

theorem splitFirst?_append {c : Char} {cs a b : List Char} (h : splitFirst? c cs = some (a, b)) :
    cs = a ++ c :: b := by
  induction cs generalizing a with
  | nil => simp [splitFirst?] at h
  | cons d ds ih =>
      simp only [splitFirst?] at h
      split at h
      · simp_all
      · obtain ⟨⟨a', b'⟩, hs, he⟩ := Option.map_eq_some_iff.1 h
        simp only [Prod.mk.injEq] at he
        obtain ⟨rfl, rfl⟩ := he
        simp [ih hs]

theorem splitLast?_append {c : Char} {cs a b : List Char} (h : splitLast? c cs = some (a, b)) :
    cs = a ++ c :: b := by
  induction cs generalizing a b with
  | nil => simp [splitLast?] at h
  | cons d ds ih =>
      simp only [splitLast?] at h
      split at h
      · next a' b' hs =>
          simp only [Option.some.injEq, Prod.mk.injEq] at h
          obtain ⟨rfl, rfl⟩ := h
          simp [ih hs]
      · split at h
        · simp_all
        · simp at h

end EnglishPages.Text
