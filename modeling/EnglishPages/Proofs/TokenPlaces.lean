import EnglishPages.Proofs.TokenJoins
import Mathlib.Data.List.DropRight

/-!
Lines and columns of tokens. The lexer counts as it goes: a byte offset, a line and a column that
each character moves on. Behind any text that it has passed, the three counts say how many bytes and
newlines the text has and how many characters stand behind its last newline. Every token, the mark
of the end included, is given the counts of the place where it starts, whatever strings, paths and
words the lexer has gone through on the way.
-/

namespace EnglishPages

open Text

/-- What stands behind the last newline of a text, or the whole text if there is none. -/
def Text.lastLine (cs : List Char) : List Char :=
  cs.rtakeWhile (· != '\n')

theorem Text.lastLine_concat (cs : List Char) (c : Char) :
    lastLine (cs ++ [c]) = if c = '\n' then [] else lastLine cs ++ [c] := by
  rw [lastLine, List.rtakeWhile_concat]
  by_cases hc : c = '\n'
  · simp [hc]
  · simp [hc, lastLine]

namespace Position

theorem column_advanceAll_start (cs : List Char) :
    (start.advanceAll cs).column = 1 + (lastLine cs).length := by
  induction cs using List.reverseRecOn with
  | nil => rfl
  | append_singleton cs c ih =>
      rw [advanceAll_append, lastLine_concat]
      change ((start.advanceAll cs).advance c).column = _
      unfold advance
      split
      · rfl
      · rw [List.length_append, ← Nat.add_assoc, ← ih]
        rfl

end Position

namespace Token

structure StandsAt (t : Token) (p : Position) : Prop where
  start : t.span.start = p.offset
  line : t.line = p.line
  column : t.column = p.column

theorem exists_standsAt {skip : Nat} {p : Position} {cs : List Char} {t : Token}
    (h : t ∈ scanFrom skip p cs) :
    ∃ before after, cs = before ++ after ∧ t.StandsAt (p.advanceAll before) := by
  induction cs generalizing skip p with
  | nil =>
      rw [scanFrom_nil] at h
      obtain rfl := List.mem_singleton.1 h
      exact ⟨[], [], rfl, ⟨rfl, rfl, rfl⟩⟩
  | cons c cs ih =>
      have hlater {skip : Nat} (h : t ∈ scanFrom skip (p.advance c) cs) :
          ∃ before after, c :: cs = before ++ after ∧ t.StandsAt (p.advanceAll before) := by
        obtain ⟨before, after, rfl, hplace⟩ := ih h
        exact ⟨c :: before, after, rfl, hplace⟩
      cases skip with
      | succ skip => exact hlater h
      | zero =>
          rw [scanFrom] at h
          cases hl : lexeme? (c :: cs) with
          | none =>
              rw [hl] at h
              exact hlater h
          | some l =>
              rw [hl] at h
              rcases List.mem_cons.1 h with rfl | h
              · exact ⟨[], c :: cs, rfl, ⟨rfl, rfl, rfl⟩⟩
              · exact hlater h

/-- A token starts between two characters of the source. Its line counts the newlines of the text
before it, and its column the characters that stand there behind the last newline, both from 1. -/
theorem place_of_mem_tokenize (source : String) {t : Token} (h : t ∈ tokenize source) :
    (∃ before after, source = before ++ after ∧ before.utf8ByteSize = t.span.start) ∧
      ∀ before after, source = before ++ after → before.utf8ByteSize = t.span.start →
        t.line = 1 + before.toList.count '\n' ∧
        t.column = 1 + (lastLine before.toList).length := by
  obtain ⟨front, back, hsource, hplace⟩ := exists_standsAt h
  have hstart : byteLength front = t.span.start := by
    rw [hplace.start, Position.offset_advanceAll]
    exact (Nat.zero_add _).symm
  refine ⟨⟨String.ofList front, String.ofList back, ?_, hstart⟩,
    fun before after hcut hbytes => ?_⟩
  · rw [← String.ofList_append, ← hsource, String.ofList_toList]
  · have hbefore : before.toList = front := by
      have hparts : before.toList ++ after.toList = front ++ back := by
        rw [← hsource, hcut, String.toList_append]
      refine (append_inj_of_byteLength hparts ?_).1
      rw [hstart, ← hbytes, byteLength, String.ofList_toList]
    rw [hbefore, hplace.line, hplace.column, Position.line_advanceAll,
      Position.column_advanceAll_start]
    exact ⟨rfl, rfl⟩

/-- Behind a string over two lines, with an escaped newline and characters of two bytes in it, the
end of the source stands in the second line. -/
theorem place_of_mem_tokenize_twoLines :
    ⟨.endOfInput, "", 2, 5, .empty 13⟩ ∈ tokenize "é \"ü\\\nö\" x" ∧
      (⟨.endOfInput, "", 2, 5, .empty 13⟩ : Token).line =
        1 + "é \"ü\\\nö\" x".toList.count '\n' ∧
      (⟨.endOfInput, "", 2, 5, .empty 13⟩ : Token).column =
        1 + (lastLine "é \"ü\\\nö\" x".toList).length := by
  have hmem : ⟨.endOfInput, "", 2, 5, .empty 13⟩ ∈ tokenize "é \"ü\\\nö\" x" := by
    decide +kernel
  exact ⟨hmem, (place_of_mem_tokenize _ hmem).2 _ "" (by decide) (by decide)⟩

end Token

end EnglishPages
