import EnglishPages.Proofs.TokenTiling
import EnglishPages.Proofs.Unplaced
import EnglishPages.Text.Lines

/-!
Writing tokens down. A word is written as it is, a string between quotes with its quotes and
backslashes escaped, and a path between brackets. Cutting a line of such tokens gives them back,
whatever stands on the next lines: a written token ends by itself or before a character that cannot
continue it.
-/

namespace EnglishPages

inductive Spelling where
  | word (text : String)
  | quoted (text : String)
  | bracketed (text : String)
  deriving DecidableEq, Repr

namespace Spelling

open Token

def escaped (c : Char) : List Char :=
  if c = '"' ∨ c = '\\' then ['\\', c] else [c]

/-- `Quotes value inside`: between quotes `inside` is a way to write `value`. A quote and a backslash
must stand behind a backslash and any other character may, but an `n` behind one is a newline. -/
inductive Quotes : List Char → List Char → Prop
  | nil : Quotes [] []
  | escaped {c : Char} {value inside : List Char} (hn : c ≠ 'n') (h : Quotes value inside) :
      Quotes (c :: value) ('\\' :: c :: inside)
  | newline {value inside : List Char} (h : Quotes value inside) :
      Quotes ('\n' :: value) ('\\' :: 'n' :: inside)
  | plain {c : Char} {value inside : List Char} (hspecial : ¬ (c = '"' ∨ c = '\\'))
      (h : Quotes value inside) : Quotes (c :: value) (c :: inside)

theorem quotes_escaped (cs : List Char) : Quotes cs (cs.flatMap escaped) := by
  induction cs with
  | nil => exact .nil
  | cons c cs ih =>
      rw [List.flatMap_cons]
      by_cases hspecial : c = '"' ∨ c = '\\'
      · have hn : c ≠ 'n' := by
          rintro rfl
          exact absurd hspecial (by decide)
        rw [escaped, if_pos hspecial]
        exact .escaped hn ih
      · rw [escaped, if_neg hspecial]
        exact .plain hspecial ih

def chars : Spelling → List Char
  | word text => text.toList
  | quoted text => '"' :: (text.toList.flatMap escaped ++ ['"'])
  | bracketed text => '[' :: (text.toList ++ [']'])

def token : Spelling → Token
  | word text => ⟨if isReserved text then .keyword else .identifier, text, 0, 0, .empty 0⟩
  | quoted text => ⟨.string, text, 0, 0, .empty 0⟩
  | bracketed text => ⟨.path, text, 0, 0, .empty 0⟩

def Lexable : Spelling → Prop
  | word text => isLowerWord text = true
  | quoted _ => True
  | bracketed text => IsPathText text

theorem unplaced_token (s : Spelling) : s.token.unplaced = s.token := by
  cases s <;> rfl

theorem isEnd_token (s : Spelling) : s.token.isEnd = false := by
  cases s with
  | word text => cases h : isReserved text <;> simp [token, isEnd, h]
  | quoted text => rfl
  | bracketed text => rfl

end Spelling

namespace Token

open Spelling

theorem stringBody_quotes {value inside : List Char} (h : Quotes value inside)
    (rest : List Char) : stringBody (inside ++ '"' :: rest) = (value, inside ++ ['"']) := by
  induction h with
  | nil => exact stringBody_quote rest
  | escaped hn _ ih =>
      rw [List.cons_append, List.cons_append, stringBody_slash, if_neg hn, ih]
      rfl
  | newline _ ih =>
      rw [List.cons_append, List.cons_append, stringBody_slash, if_pos rfl, ih]
      rfl
  | plain hspecial _ ih =>
      obtain ⟨hquote, hslash⟩ := not_or.1 hspecial
      rw [List.cons_append, stringBody_other hquote hslash, ih]
      rfl

theorem lexeme?_quotes {value inside : List Char} (h : Quotes value inside) (rest : List Char) :
    lexeme? ('"' :: (inside ++ '"' :: rest)) =
      some ⟨.string, String.ofList value, '"' :: (inside ++ ['"'])⟩ := by
  rw [lexeme?, if_pos rfl, stringBody_quotes h]

theorem isAlpha_of_isLower {c : Char} (h : c.isLower = true) : c.isAlpha = true :=
  Bool.or_eq_true_iff.2 (.inr h)

theorem isWordChar_of_isLowerWordChar {c : Char} (h : isLowerWordChar c = true) :
    isWordChar c = true := by
  change ((c.isAlpha || c.isDigit) || c == '_' || c == '-') = true
  rcases Bool.or_eq_true_iff.1 h with hlower | hother
  · simp [isAlpha_of_isLower hlower]
  · rw [Bool.or_assoc, Bool.or_assoc, ← Bool.or_assoc c.isDigit, hother, Bool.or_true]

theorem lexeme?_word {text : String} (h : isLowerWord text = true) {rest : List Char}
    (hrest : ∀ c ∈ rest.head?, isWordChar c = false) :
    lexeme? (text.toList ++ rest) =
      some ⟨if isReserved text then .keyword else .identifier, text, text.toList⟩ := by
  have hchars := fun c (hc : c ∈ text.toList) => isLowerWordChar_of_mem h hc
  have hlower : text.toList.map Char.toLower = text.toList :=
    (List.map_congr_left fun c hc =>
      Text.toLower_eq_self (isUpper_of_isLowerWordChar (hchars c hc))).trans (List.map_id' _)
  have hhead : ∃ c ∈ text.toList.head?, c.isAlpha = true := by
    cases htext : text.toList with
    | nil => simp [isLowerWord, htext] at h
    | cons c cs =>
        rw [isLowerWord, htext] at h
        exact ⟨c, rfl, isAlpha_of_isLower (Bool.and_eq_true_iff.1 h).1⟩
  have hword : wordLexeme text.toList =
      ⟨if isReserved text then .keyword else .identifier, text, text.toList⟩ := by
    simp only [wordLexeme, hlower, String.ofList_toList]
  rw [← hword]
  exact lexeme?_word_text hhead (fun c hc => isWordChar_of_isLowerWordChar (hchars c hc)) hrest

theorem lexeme?_chars {s : Spelling} (hs : s.Lexable) {rest : List Char}
    (hrest : ∀ c ∈ rest.head?, isWordChar c = false) :
    lexeme? (s.chars ++ rest) = some ⟨s.token.kind, s.token.value, s.chars⟩ := by
  cases s with
  | word text => exact lexeme?_word hs hrest
  | quoted text =>
      have hquoted := lexeme?_quotes (quotes_escaped text.toList) rest
      simpa [chars, Spelling.token] using hquoted
  | bracketed text =>
      have hsplit := Text.splitFirst?_of_not_mem hs.not_mem rest
      simp [chars, lexeme?, pathBody, hsplit, hs.trim_eq, Spelling.token]

theorem map_unplaced_scanFrom (skip : Nat) (p q : Position) (cs : List Char) :
    (scanFrom skip p cs).map unplaced = (scanFrom skip q cs).map unplaced := by
  have hspan : ∀ i j, Relocation.nowhere.span ⟨p.offset + i, p.offset + j⟩ =
      Relocation.nowhere.span ⟨q.offset + i, q.offset + j⟩ := fun _ _ => rfl
  exact relocated_scanFrom hspan (fun _ _ => rfl) (fun _ _ => rfl) skip cs

def unplacedTokens (cs : List Char) : List Token :=
  (scanFrom 0 .start cs).map unplaced

theorem unplacedTokens_of_none {c : Char} {cs : List Char} (h : lexeme? (c :: cs) = none) :
    unplacedTokens (c :: cs) = unplacedTokens cs := by
  rw [unplacedTokens, scanFrom, h]
  exact map_unplaced_scanFrom 0 _ _ cs

theorem unplacedTokens_lexeme {l : Lexeme} {rest : List Char}
    (h : lexeme? (l.text ++ rest) = some l) :
    unplacedTokens (l.text ++ rest) =
      ⟨l.kind, l.value, 0, 0, .empty 0⟩ :: unplacedTokens rest := by
  rw [unplacedTokens, scanFrom_lexeme h, List.map_cons]
  exact congrArg (_ :: ·) (map_unplaced_scanFrom 0 _ _ rest)

theorem unplacedTokens_chars {s : Spelling} (hs : s.Lexable) {rest : List Char}
    (hrest : ∀ c ∈ rest.head?, isWordChar c = false) :
    unplacedTokens (s.chars ++ rest) = s.token :: unplacedTokens rest := by
  have htokens := unplacedTokens_lexeme (l := ⟨s.token.kind, s.token.value, s.chars⟩)
    (lexeme?_chars hs hrest)
  exact htokens.trans (congrArg (· :: _) s.unplaced_token)

theorem unplacedTokens_joined (ss : List Spelling) (hss : ∀ s ∈ ss, s.Lexable)
    (rest : List Char) :
    unplacedTokens (Text.joined ' ' (ss.map chars) ++ '\n' :: rest) =
      ss.map token ++ unplacedTokens rest := by
  have hspace : ∀ cs, unplacedTokens (' ' :: cs) = unplacedTokens cs := fun cs =>
    unplacedTokens_of_none (by rfl)
  have hnewline : unplacedTokens ('\n' :: rest) = unplacedTokens rest :=
    unplacedTokens_of_none (by rfl)
  induction ss with
  | nil => exact hnewline
  | cons s ss ih =>
      obtain ⟨hs, hss⟩ := List.forall_mem_cons.1 hss
      cases ss with
      | nil =>
          rw [List.map_cons, List.map_nil, Text.joined,
            unplacedTokens_chars hs (by simp [isWordChar]), hnewline]
          rfl
      | cons s' ss =>
          rw [List.map_cons, List.map_cons, Text.joined_cons_cons, List.append_assoc, List.cons_append,
            unplacedTokens_chars hs (by simp [isWordChar]), hspace]
          exact congrArg (s.token :: ·) (ih hss)

end Token

end EnglishPages
