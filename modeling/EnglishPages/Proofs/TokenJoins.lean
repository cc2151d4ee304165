import EnglishPages.Proofs.Spelling

/-!
Tokens of two texts joined by a line end. A line end belongs to no word and starts no token, so the
lexer passes it between tokens, unless a string or a path is still open there. If none is, the
tokens of the joined text are those of the first text and then those of the second, moved down by
the lines and on by the bytes of the first.

The lexer decides about a token when it has seen the token and, for a word, the character behind it.
So a run of it over the first text goes the same with a line end and any text behind.
-/

namespace EnglishPages

open Text

namespace Relocation

variable (bytes lines : Nat)

theorem advance_onward (p : Position) (c : Char) :
    ((onward bytes lines).position p).advance c = (onward bytes lines).position (p.advance c) := by
  unfold Position.advance
  split
  · simp only [position, onward, Span.empty, Nat.add_right_comm]
  · simp only [position, onward, Span.empty, Nat.add_right_comm]

theorem advanceAll_onward (p : Position) (cs : List Char) :
    ((onward bytes lines).position p).advanceAll cs =
      (onward bytes lines).position (p.advanceAll cs) := by
  induction cs generalizing p with
  | nil => rfl
  | cons c cs ih =>
      have hrest := ih (p.advance c)
      rw [← advance_onward] at hrest
      exact hrest

end Relocation

namespace Position

theorem line_advanceAll (p : Position) (cs : List Char) :
    (p.advanceAll cs).line = p.line + cs.count '\n' := by
  induction cs generalizing p with
  | nil => rfl
  | cons c cs ih =>
      have hrest : ((p.advance c).advanceAll cs).line = (p.advance c).line + cs.count '\n' := ih _
      have hfirst : (p.advance c).line = p.line + [c].count '\n' := by
        unfold advance
        split
        · next hc => simp [hc]
        · next hc => simp [hc]
      rw [← List.singleton_append, advanceAll_append, List.count_append, ← Nat.add_assoc, ← hfirst]
      exact hrest

theorem advanceAll_line_end (source : String) :
    start.advanceAll (source.toList ++ ['\n']) = (Relocation.below source).position start := by
  have hoffset := start.offset_advanceAll source.toList
  have hline := start.line_advanceAll source.toList
  rw [advanceAll_append]
  change (start.advanceAll source.toList).advance '\n' = _
  rw [advance, if_pos rfl, hoffset, hline, byteLength_toList]
  rfl

end Position

namespace Token

/-- Tokens from a place that is mapped elsewhere, if the map of places goes along with reading and
that of tokens with it. -/
theorem scanFrom_map {f : Position → Position} {g : Token → Token} {P : Position → Prop}
    (hnext : ∀ p c, P p → P (p.advance c) ∧ (f p).advance c = f (p.advance c))
    (htoken : ∀ p (l : Lexeme), P p → l.token (f p) = g (l.token p))
    {p : Position} (hp : P p) (skip : Nat) (cs : List Char) :
    scanFrom skip (f p) cs = (scanFrom skip p cs).map g := by
  induction cs generalizing skip p with
  | nil =>
      rw [scanFrom_nil, scanFrom_nil]
      exact congrArg (fun t => [t]) (htoken p ⟨.endOfInput, "", []⟩ hp)
  | cons c cs ih =>
      obtain ⟨hlater, hplace⟩ := hnext p c hp
      cases skip with
      | succ skip => rw [scanFrom, scanFrom, hplace, ih hlater]
      | zero =>
          rw [scanFrom, scanFrom, hplace]
          cases lexeme? (c :: cs) with
          | none => exact ih hlater 0
          | some l =>
              simp only [ih hlater, List.map_cons]
              exact congrArg (fun t => t :: _) (htoken p l hp)

theorem scanFrom_onward (bytes lines skip : Nat) (p : Position) (cs : List Char) :
    scanFrom skip ((Relocation.onward bytes lines).position p) cs =
      (scanFrom skip p cs).map (Relocation.onward bytes lines).token := by
  refine scanFrom_map (P := fun _ => True)
    (fun p c _ => ⟨trivial, Relocation.advance_onward bytes lines p c⟩) (fun p l _ => ?_) trivial
    skip cs
  rw [Lexeme.token, Relocation.advanceAll_onward]
  rfl

def StringInside (inside : List Char) : Prop :=
  ∃ value, Spelling.Quotes value inside

/-- A string token that ends at its closing quote, a path token that ends at its closing bracket, or
a token of another kind. -/
def IsClosed (source : String) (t : Token) : Prop :=
  match t.kind with
  | .string => ∃ before inside after,
      t.span.Cuts source before ("\"" ++ inside ++ "\"") after ∧ StringInside inside.toList
  | .path => ∃ before inside after,
      t.span.Cuts source before ("[" ++ inside ++ "]") after ∧ ']' ∉ inside.toList
  | _ => True

def Lexeme.IsClosed (l : Lexeme) : Prop :=
  match l.kind with
  | .string => ∃ inside, l.text = '"' :: (inside ++ ['"']) ∧ StringInside inside
  | .path => ∃ inside, l.text = '[' :: (inside ++ [']']) ∧ ']' ∉ inside
  | _ => True

theorem lexeme?_path {inside : List Char} (h : ']' ∉ inside) (rest : List Char) :
    lexeme? ('[' :: (inside ++ ']' :: rest)) =
      some ⟨.path, String.ofList (trim inside), '[' :: (inside ++ [']'])⟩ := by
  have hbody : pathBody (inside ++ ']' :: rest) = (inside, inside ++ [']']) := by
    simp only [pathBody, splitFirst?_of_not_mem h]
  rw [lexeme?, if_neg (by decide), if_pos rfl, hbody]

theorem lexeme?_extend {l : Lexeme} {cs more : List Char} (h : lexeme? (l.text ++ cs) = some l)
    (hclosed : l.IsClosed) (hmore : ∀ c ∈ more.head?, isWordChar c = false) :
    lexeme? (l.text ++ (cs ++ more)) = some l := by
  obtain ⟨-, hwritten, -⟩ := lexeme?_append h
  have hwritten := hwritten .start
  obtain ⟨kind, value, text⟩ := l
  have hword (hhead : ∃ c ∈ text.head?, c.isAlpha = true)
      (htext : ∀ c ∈ text, c.isAlphanum = true ∨ c = '_' ∨ c = '-')
      (hcs : ∀ c ∈ cs.head?, ¬ (c.isAlphanum = true ∨ c = '_' ∨ c = '-')) :
      lexeme? (text ++ (cs ++ more)) = lexeme? (text ++ cs) := by
    have htext : ∀ c ∈ text, isWordChar c = true := fun c hc => isWordChar_iff.2 (htext c hc)
    have hcs : ∀ c ∈ cs.head?, isWordChar c = false := fun c hc =>
      Bool.eq_false_iff.2 fun hc' => hcs c hc (isWordChar_iff.1 hc')
    have hboth : ∀ c ∈ (cs ++ more).head?, isWordChar c = false := by
      cases cs with
      | nil => exact hmore
      | cons c cs => exact hcs
    rw [lexeme?_word_text hhead htext hboth, lexeme?_word_text hhead htext hcs]
  cases kind with
  | string =>
      obtain ⟨inside, rfl, value', hquotes⟩ := hclosed
      simp only [List.cons_append, List.append_assoc, List.nil_append] at h ⊢
      rw [lexeme?_quotes hquotes] at h ⊢
      exact h
  | path =>
      obtain ⟨inside, rfl, hinside⟩ := hclosed
      simp only [List.cons_append, List.append_assoc, List.nil_append] at h ⊢
      rw [lexeme?_path hinside] at h ⊢
      exact h
  | keyword =>
      obtain ⟨hhead, htext, hafter, -, -⟩ := hwritten
      simp only [String.toList_ofList] at hhead htext hafter
      rw [hword hhead htext hafter, h]
  | identifier =>
      obtain ⟨hhead, htext, hafter, -, -⟩ := hwritten
      simp only [String.toList_ofList] at hhead htext hafter
      rw [hword hhead htext hafter, h]
  | endOfInput => cases hwritten

theorem Reads.extend {p q : Position} {cs rest more : List Char} {ts : List Token}
    (h : Reads p cs ts q rest)
    (hclosed : ∀ before l after, cs = before ++ (l.text ++ after) →
      l.token (p.advanceAll before) ∈ ts → lexeme? (l.text ++ after) = some l → l.IsClosed)
    (hmore : ∀ c ∈ more.head?, isWordChar c = false) :
    Reads p (cs ++ more) ts q (rest ++ more) := by
  induction h with
  | done p cs => exact .done p _
  | @next p q gap cs rest l ts hgap hl h ih =>
      have hlclosed : l.IsClosed := hclosed gap l cs rfl List.mem_cons_self hl
      have hlater : Reads ((p.advanceAll gap).advanceAll l.text) (cs ++ more) ts q
          (rest ++ more) := by
        refine ih fun before l' after hcs hmem hl' => ?_
        refine hclosed (gap ++ (l.text ++ before)) l' after ?_ ?_ hl'
        · rw [hcs]
          simp only [List.append_assoc]
        · rw [Position.advanceAll_append, Position.advanceAll_append]
          exact List.mem_cons_of_mem _ hmem
      have hboth := Reads.next hgap (lexeme?_extend hl hlclosed hmore) hlater
      simpa only [List.append_assoc] using hboth

theorem Lexeme.text_of_cuts {source before' text' after' : String} {before after : List Char}
    {l : Lexeme} (h : source.toList = before ++ (l.text ++ after))
    (hcuts : (l.token (Position.start.advanceAll before)).span.Cuts source before' text' after') :
    l.text = text'.toList := by
  obtain ⟨hsource, hstart, hstop⟩ := hcuts
  have hparts : before ++ (l.text ++ after) =
      before'.toList ++ (text'.toList ++ after'.toList) := by
    rw [← h, hsource, String.toList_append, String.toList_append, List.append_assoc]
  rw [l.start_token] at hstart
  rw [l.stop_token, hstart] at hstop
  have hbefore : byteLength before = byteLength before'.toList := by
    rw [byteLength_toList, ← hstart]
    exact (Nat.zero_add _).symm
  have htext : byteLength l.text = byteLength text'.toList := by
    rw [byteLength_toList]
    exact Nat.add_left_cancel hstop
  exact (append_inj_of_byteLength (append_inj_of_byteLength hparts hbefore).2 htext).1

theorem Lexeme.isClosed_of_token {source : String} {before after : List Char} {l : Lexeme}
    (h : source.toList = before ++ (l.text ++ after))
    (hclosed : (l.token (Position.start.advanceAll before)).IsClosed source) : l.IsClosed := by
  unfold IsClosed Token.IsClosed at *
  cases hkind : l.kind with
  | string =>
      simp only [Lexeme.token, hkind] at hclosed ⊢
      obtain ⟨before', inside, after', hcuts, hinside⟩ := hclosed
      exact ⟨inside.toList, by simpa using l.text_of_cuts h hcuts, hinside⟩
  | path =>
      simp only [Lexeme.token, hkind] at hclosed ⊢
      obtain ⟨before', inside, after', hcuts, hinside⟩ := hclosed
      exact ⟨inside.toList, by simpa using l.text_of_cuts h hcuts, hinside⟩
  | keyword => trivial
  | identifier => trivial
  | endOfInput => trivial

theorem Reads.tokenize_line {a : String} {ts : List Token} {q : Position} {rest : List Char}
    (h : Reads .start a.toList ts q rest) (hrest : ∀ c ∈ rest, starts c = false)
    (hclosed : ∀ t ∈ ts, t.IsClosed a) (b : String) :
    tokenize (a ++ "\n" ++ b) =
      ts ++ (tokenize b).map (Relocation.below a).token := by
  have hnewline : ∀ c ∈ ('\n' :: b.toList).head?, isWordChar c = false := by simp [isWordChar]
  have hjoined : Reads .start (a.toList ++ '\n' :: b.toList) ts q (rest ++ '\n' :: b.toList) :=
    h.extend (fun _ _ _ hsource hmem _ => Lexeme.isClosed_of_token hsource (hclosed _ hmem))
      hnewline
  -- Behind the last token of `a` a gap is left, and the newline lengthens it.
  have hgap : ∀ c ∈ rest ++ ['\n'], starts c = false := by
    intro c hc
    rcases List.mem_append.1 hc with hc | hc
    · exact hrest c hc
    · rw [List.mem_singleton.1 hc]
      rfl
  have hplace : q.advanceAll (rest ++ ['\n']) = (Relocation.below a).position .start := by
    obtain ⟨used, hsource, hq, -⟩ := h.cut
    rw [hq, ← Position.advanceAll_append, ← List.append_assoc, ← hsource,
      Position.advanceAll_line_end]
  have hsource : (a ++ "\n" ++ b).toList = a.toList ++ '\n' :: b.toList := by simp
  have hbehind : rest ++ '\n' :: b.toList = (rest ++ ['\n']) ++ b.toList := by simp
  rw [tokenize, hsource, hjoined.scanFrom_eq, hbehind, scanFrom_gap hgap, hplace, Relocation.below,
    scanFrom_onward]
  rfl

/-- If every string and path of `a` is closed, the tokens of `a`, a newline and `b` are the tokens of
`a` without the mark of its end, and behind them those of `b`, moved on by the bytes and down by the
lines of `a`. -/
theorem tokenize_append_newline (a b : String) (h : ∀ t ∈ tokenize a, t.IsClosed a) :
    tokenize (a ++ "\n" ++ b) =
      (tokenize a).dropLast ++ (tokenize b).map (Relocation.below a).token := by
  obtain ⟨ts, q, rest, eof, hreads, hrest, htokens, -, -⟩ := exists_reads_tokenize a
  have hclosed : ∀ t ∈ ts, t.IsClosed a := by
    intro t ht
    refine h t ?_
    rw [htokens]
    exact List.mem_append_left _ ht
  rw [hreads.tokenize_line hrest hclosed b, htokens, List.dropLast_concat]

/-- A string that holds a quote and a line end, a path, and behind them a string that is not
closed. -/
theorem tokenize_append_newline_quoted :
    (∀ t ∈ tokenize "é \"\\\"\n\" [p]x", t.IsClosed "é \"\\\"\n\" [p]x") ∧
      tokenize ("é \"\\\"\n\" [p]x" ++ "\n" ++ "\"y\nz") =
        (tokenize "é \"\\\"\n\" [p]x").dropLast ++
          (tokenize "\"y\nz").map (Relocation.onward 14 2).token := by
  have htokens : tokenize "é \"\\\"\n\" [p]x" =
      [⟨.string, "\"\n", 1, 3, ⟨3, 8⟩⟩, ⟨.path, "p", 2, 3, ⟨9, 12⟩⟩,
        ⟨.identifier, "x", 2, 6, ⟨12, 13⟩⟩, ⟨.endOfInput, "", 2, 7, .empty 13⟩] := by
    decide +kernel
  have hclosed : ∀ t ∈ tokenize "é \"\\\"\n\" [p]x", t.IsClosed "é \"\\\"\n\" [p]x" := by
    rw [htokens]
    refine List.forall_mem_cons.2 ⟨?_, List.forall_mem_cons.2 ⟨?_, fun t ht => ?_⟩⟩
    · exact ⟨"é ", "\\\"\n", " [p]x", ⟨by decide, by decide, by decide⟩,
        _, .escaped (by decide) (.plain (by decide) .nil)⟩
    · exact ⟨"é \"\\\"\n\" ", "p", "x", ⟨by decide, by decide, by decide⟩, by decide⟩
    · simp only [List.mem_cons, List.not_mem_nil, or_false] at ht
      rcases ht with rfl | rfl
      · trivial
      · trivial
  exact ⟨hclosed, tokenize_append_newline _ _ hclosed⟩

end Token

end EnglishPages
