/-!
Keywords are read without regard to case. Two characters agree when their simple case foldings do;
against an ASCII letter that adds to the letter's two cases the long s (U+017F, with s) and the
Kelvin sign (U+212A, with k), and nothing else.
-/

namespace EnglishPages.Text

/-- Simple case folding, as far as it can reach an ASCII character. -/
def foldCase (c : Char) : Char :=
  if c.toNat == 0x17F then 's' else if c.toNat == 0x212A then 'k' else c.toLower

/-- What follows the keyword, if the text starts with it in any case. The keyword is given in
lower case. -/
def afterKeyword? : List Char → List Char → Option (List Char)
  | [], cs => some cs
  | _ :: _, [] => none
  | k :: ks, c :: cs => if foldCase c = k then afterKeyword? ks cs else none

@[simp]
theorem afterKeyword?_nil (cs : List Char) : afterKeyword? [] cs = some cs := by
  cases cs <;> rfl

theorem length_of_afterKeyword? {ks cs rest : List Char} (h : afterKeyword? ks cs = some rest) :
    cs.length = ks.length + rest.length := by
  induction ks generalizing cs with
  | nil => simp_all
  | cons k ks ih =>
      cases cs with
      | nil => simp [afterKeyword?] at h
      | cons c cs =>
          simp only [afterKeyword?] at h
          split at h
          · have := ih h
            simp only [List.length_cons]
            omega
          · simp at h

end EnglishPages.Text
