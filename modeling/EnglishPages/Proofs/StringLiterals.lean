import EnglishPages.Proofs.Spelling
import EnglishPages.Proofs.TokenPlaces

/-!
Every text can be written as a string. Between quotes each character stands for itself, but a quote
and a backslash stand behind a backslash, and a newline may be written by an `n` behind one. The
lexer undoes this exactly: it takes the string up to its closing quote, whatever runs of backslashes
stand in it and whatever follows, and reads on behind it as at the start of a source.
-/

namespace EnglishPages

open Text

/-! Places behind a text. Bytes and lines add up; columns go on from the last line of the text in
the line that it leaves open, and nowhere else. -/

def Position.behind (text : List Char) (p : Position) : Position :=
  ⟨p.offset + byteLength text, p.line + text.count '\n',
    if p.line = 1 then p.column + (lastLine text).length else p.column⟩

def Token.behind (text : List Char) (t : Token) : Token :=
  { t with
    line := t.line + text.count '\n'
    column := if t.line = 1 then t.column + (lastLine text).length else t.column
    span := ⟨t.span.start + byteLength text, t.span.stop + byteLength text⟩ }

namespace Position

theorem advanceAll_start (text : List Char) : start.advanceAll text = start.behind text := by
  have hoffset := start.offset_advanceAll text
  have hline := start.line_advanceAll text
  have hcolumn := column_advanceAll_start text
  calc start.advanceAll text
      = ⟨(start.advanceAll text).offset, (start.advanceAll text).line,
          (start.advanceAll text).column⟩ := rfl
    _ = start.behind text := by
      rw [hoffset, hline, hcolumn]
      rfl

theorem line_advance_pos {p : Position} (h : 0 < p.line) (c : Char) : 0 < (p.advance c).line := by
  unfold advance
  split
  · exact Nat.succ_pos _
  · exact h

theorem advance_behind (text : List Char) {p : Position} (h : 0 < p.line) (c : Char) :
    (p.behind text).advance c = (p.advance c).behind text := by
  unfold advance
  split
  · -- a newline leads out of the first line
    have hline : p.line + 1 ≠ 1 := by omega
    simp only [behind, if_neg hline, Nat.add_right_comm]
  · by_cases hline : p.line = 1
    · simp only [behind, if_pos hline, Nat.add_right_comm]
    · simp only [behind, if_neg hline, Nat.add_right_comm]

end Position

namespace Token

open Spelling

theorem Lexeme.token_behind (text : List Char) (p : Position) (l : Lexeme) :
    l.token (p.behind text) = (l.token p).behind text := by
  have hstop : ((p.behind text).advanceAll l.text).offset =
      (p.advanceAll l.text).offset + byteLength text := by
    simp only [Position.offset_advanceAll, Position.behind, Nat.add_right_comm]
  rw [Lexeme.token, hstop]
  rfl

theorem scanFrom_advanceAll_start (text cs : List Char) :
    scanFrom 0 (Position.start.advanceAll text) cs = (scanFrom 0 .start cs).map (behind text) := by
  rw [Position.advanceAll_start]
  exact scanFrom_map (P := fun p => 0 < p.line)
    (fun p c hp => ⟨p.line_advance_pos hp c, p.advance_behind text hp c⟩)
    (fun p l _ => l.token_behind text p) Nat.one_pos 0 cs

def IsLiteral (s q : String) : Prop :=
  ∃ inside, Quotes s.toList inside ∧ q.toList = '"' :: (inside ++ ['"'])

theorem isLiteral_quoted (s : String) : IsLiteral s (String.ofList (Spelling.quoted s).chars) :=
  ⟨_, quotes_escaped s.toList, String.toList_ofList⟩

/-- Every text can be written as a string. However it is written and whatever follows, the first
token is that string with the text for its value, and behind it come the tokens of what follows,
moved on by the bytes that were written. -/
theorem tokenize_literal (s : String) :
    (∃ q, IsLiteral s q) ∧
      ∀ q, IsLiteral s q → ∀ rest, tokenize (q ++ rest) =
        ⟨.string, s, 1, 1, ⟨0, q.utf8ByteSize⟩⟩ :: (tokenize rest).map (behind q.toList) := by
  refine ⟨⟨_, isLiteral_quoted s⟩, ?_⟩
  rintro q ⟨inside, hinside, hq⟩ rest
  have hlexeme : lexeme? (q.toList ++ rest.toList) = some ⟨.string, s, q.toList⟩ := by
    have hquotes := lexeme?_quotes hinside rest.toList
    rw [String.ofList_toList] at hquotes
    simpa [hq] using hquotes
  have htokens := scanFrom_lexeme (l := ⟨.string, s, q.toList⟩) hlexeme .start
  have hspan : (Position.start.advanceAll q.toList).offset = q.utf8ByteSize := by
    rw [Position.offset_advanceAll, byteLength_toList]
    exact Nat.zero_add _
  rw [Lexeme.token, hspan, scanFrom_advanceAll_start, ← String.toList_append] at htokens
  exact htokens

/-- A backslash before an `n`, a quote, two newlines written in the two ways, and a backslash before
the closing quote; behind it a word and a string that is not closed. -/
theorem tokenize_literal_backslashes :
    IsLiteral "\\n\"\n\n\\" "\"\\\\n\\\"\\n\n\\\\\"" ∧
      tokenize ("\"\\\\n\\\"\\n\n\\\\\"" ++ "é a\n\"b\\") =
        ⟨.string, "\\n\"\n\n\\", 1, 1, ⟨0, 12⟩⟩ ::
          (tokenize "é a\n\"b\\").map (behind "\"\\\\n\\\"\\n\n\\\\\"".toList) := by
  have hquotes : Quotes "\\n\"\n\n\\".toList
      ['\\', '\\', 'n', '\\', '"', '\\', 'n', '\n', '\\', '\\'] :=
    .escaped (by decide) (.plain (by decide) (.escaped (by decide) (.newline (.plain (by decide)
      (.escaped (by decide) .nil)))))
  have hliteral : IsLiteral "\\n\"\n\n\\" "\"\\\\n\\\"\\n\n\\\\\"" := ⟨_, hquotes, by decide⟩
  exact ⟨hliteral, (tokenize_literal _).2 _ hliteral _⟩

end Token

end EnglishPages
