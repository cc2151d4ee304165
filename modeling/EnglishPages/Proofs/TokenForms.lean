import EnglishPages.Proofs.LetterCase
import EnglishPages.Proofs.Scanning
import EnglishPages.Token.Lexer

/-!
The values that tokens can have. Words are in lower case and reserved words are keywords; a path
has no white space at its ends and no closing bracket in it. The forms hold of every lexeme, and so
of every token of a source.
-/

namespace EnglishPages

namespace Token

def isLowerWordChar (c : Char) : Bool :=
  c.isLower || (c.isDigit || c == '_' || c == '-')

def isLowerWord (s : String) : Bool :=
  match s.toList with
  | [] => false
  | c :: cs => c.isLower && cs.all isLowerWordChar

structure IsPathText (s : String) : Prop where
  trim_eq : Text.trim s.toList = s.toList
  not_mem : ']' ∉ s.toList

def HasForm : TokenKind → String → Prop
  | .keyword, value => isLowerWord value = true ∧ isReserved value = true
  | .identifier, value => isLowerWord value = true ∧ isReserved value = false
  | .path, value => IsPathText value
  | .string, _ => True
  | .endOfInput, _ => True

section Case

variable {c : Char}

theorem isLowerWordChar_toLower (h : isWordChar c = true) :
    isLowerWordChar c.toLower = true := by
  by_cases hc : c.isAlpha = true
  · simp [isLowerWordChar, Text.isLower_toLower hc]
  · have hupper : c.isUpper = false :=
      Bool.eq_false_iff.2 fun hupper => hc (Bool.or_eq_true_iff.2 (.inl hupper))
    have hother : (c.isDigit || c == '_' || c == '-') = true := by
      change ((c.isAlpha || c.isDigit) || c == '_' || c == '-') = true at h
      simpa [hc] using h
    rw [Text.toLower_eq_self hupper, isLowerWordChar, hother, Bool.or_true]

theorem isUpper_of_isLowerWordChar (h : isLowerWordChar c = true) : c.isUpper = false := by
  refine Bool.eq_false_iff.2 fun hupper => ?_
  have hrange := Text.isUpper_iff.1 hupper
  simp only [isLowerWordChar, Bool.or_eq_true, beq_iff_eq] at h
  rcases h with hlower | (hdigit | rfl) | rfl
  · have := Text.isLower_iff.1 hlower
    omega
  · have := Text.isDigit_iff.1 hdigit
    omega
  · exact absurd hupper (by decide)
  · exact absurd hupper (by decide)

end Case

theorem isLowerWord_word {c : Char} (hc : c.isAlpha = true) (cs : List Char) :
    isLowerWord (String.ofList ((c :: cs.takeWhile isWordChar).map Char.toLower)) = true := by
  have hrest : ((cs.takeWhile isWordChar).map Char.toLower).all isLowerWordChar = true := by
    rw [List.all_map, List.all_eq_true]
    intro d hd
    exact isLowerWordChar_toLower (List.all_eq_true.1 List.all_takeWhile d hd)
  simp only [isLowerWord, String.toList_ofList, List.map_cons, Text.isLower_toLower hc, hrest,
    Bool.and_true]

theorem isPathText_trim {inside : List Char} (h : ']' ∉ inside) :
    IsPathText (String.ofList (Text.trim inside)) := by
  refine ⟨?_, ?_⟩
  · rw [String.toList_ofList]
    exact (Text.isTrimmed_trim inside).trim_eq
  · rw [String.toList_ofList]
    exact fun hmem => h (Text.mem_of_mem_trim hmem)

theorem not_mem_pathBody (cs : List Char) : ']' ∉ (pathBody cs).1 := by
  unfold pathBody
  split
  · next hsplit => exact Text.splitFirst?_not_mem hsplit
  · next hsplit => exact Text.splitFirst?_eq_none hsplit

theorem hasForm_lexeme {cs : List Char} {l : Lexeme} (h : lexeme? cs = some l) :
    HasForm l.kind l.value := by
  cases cs with
  | nil => simp [lexeme?] at h
  | cons c cs =>
      simp only [lexeme?] at h
      split at h
      · cases h
        trivial
      split at h
      · cases h
        exact isPathText_trim (not_mem_pathBody cs)
      split at h
      · next hc =>
          cases h
          have hword := isLowerWord_word hc cs
          by_cases hreserved :
            isReserved (String.ofList ((c :: cs.takeWhile isWordChar).map Char.toLower)) = true
          · simp only [hreserved, if_true]
            exact ⟨hword, hreserved⟩
          · simp only [hreserved, Bool.false_eq_true, if_false]
            exact ⟨hword, by simpa using hreserved⟩
      · simp at h

theorem hasForm_scanFrom {skip : Nat} {p : Position} {cs : List Char} {t : Token}
    (h : t ∈ scanFrom skip p cs) : HasForm t.kind t.value := by
  induction cs generalizing skip p with
  | nil =>
      rw [scanFrom_nil, List.mem_singleton] at h
      rw [h]
      trivial
  | cons c cs ih =>
      cases skip with
      | succ skip => exact ih h
      | zero =>
          rw [scanFrom] at h
          split at h
          · next l hl =>
              rcases List.mem_cons.1 h with rfl | h
              · exact hasForm_lexeme hl
              · exact ih h
          · exact ih h

theorem hasForm_tokenize {source : String} {t : Token} (h : t ∈ tokenize source) :
    HasForm t.kind t.value :=
  hasForm_scanFrom h

theorem isLowerWordChar_of_mem {s : String} (h : isLowerWord s = true) {c : Char}
    (hc : c ∈ s.toList) : isLowerWordChar c = true := by
  unfold isLowerWord at h
  split at h
  · simp at h
  · next d cs hs =>
      obtain ⟨hfirst, hrest⟩ := Bool.and_eq_true_iff.1 h
      rw [hs] at hc
      rcases List.mem_cons.1 hc with rfl | hc
      · simp [isLowerWordChar, hfirst]
      · exact List.all_eq_true.1 hrest c hc

theorem toLower_of_isLowerWord {s : String} (h : isLowerWord s = true) : s.toLower = s := by
  have hsame : ∀ c ∈ s.toList, c.toLower = c := fun c hc =>
    Text.toLower_eq_self (isUpper_of_isLowerWordChar (isLowerWordChar_of_mem h hc))
  apply String.ext
  change (s.map Char.toLower).toList = s.toList
  rw [String.toList_map, List.map_congr_left hsame, List.map_id']

end Token

end EnglishPages
