import EnglishPages.Proofs.TokenForms

/-!
How the tokens of a source lie in it. Reading goes forward by gaps and lexemes: a gap holds no
character that could start a token, and a lexeme is cut from the text right behind it. So the spans
follow each other without touching twice the same byte, their ends fall between characters, and what
stands outside them starts no token.

`Reads` is one such run of the lexer over a part of the source. It composes, and it says of a token
what stands before it, in it and behind it.
-/

namespace EnglishPages

namespace Text

def byteLength (cs : List Char) : Nat := (String.ofList cs).utf8ByteSize

@[simp] theorem byteLength_nil : byteLength [] = 0 := by
  simp [byteLength]

@[simp] theorem byteLength_cons (c : Char) (cs : List Char) :
    byteLength (c :: cs) = c.utf8Size + byteLength cs := by
  simp [byteLength, String.ofList_cons]

@[simp] theorem byteLength_append (cs ds : List Char) :
    byteLength (cs ++ ds) = byteLength cs + byteLength ds := by
  simp [byteLength, String.ofList_append]

theorem byteLength_toList (s : String) : byteLength s.toList = s.utf8ByteSize := by
  rw [byteLength, String.ofList_toList]

theorem byteLength_pos {cs : List Char} (h : cs ≠ []) : 0 < byteLength cs := by
  obtain ⟨c, cs, rfl⟩ := List.exists_cons_of_ne_nil h
  rw [byteLength_cons]
  exact Nat.add_pos_left c.utf8Size_pos _

theorem eq_nil_of_byteLength_append {cs ds : List Char}
    (h : byteLength (cs ++ ds) = byteLength cs) : ds = [] := by
  cases ds with
  | nil => rfl
  | cons d ds =>
      have := byteLength_pos (List.cons_ne_nil d ds)
      rw [byteLength_append] at h
      omega

theorem append_inj_of_byteLength {cs ds cs' ds' : List Char} (h : cs ++ ds = cs' ++ ds')
    (hlength : byteLength cs = byteLength cs') : cs = cs' ∧ ds = ds' := by
  rcases List.append_eq_append_iff.1 h with ⟨more, rfl, rfl⟩ | ⟨more, rfl, rfl⟩
  · obtain rfl := eq_nil_of_byteLength_append hlength.symm
    exact ⟨(List.append_nil cs).symm, rfl⟩
  · obtain rfl := eq_nil_of_byteLength_append hlength
    exact ⟨List.append_nil cs', rfl⟩

end Text

open Text

/-- `s.Cuts source before text after`: the span covers `text`, and in the source `before` and `after`
stand around it. -/
structure Span.Cuts (s : Span) (source before text after : String) : Prop where
  source_eq : source = before ++ text ++ after
  start_eq : s.start = before.utf8ByteSize
  stop_eq : s.stop = before.utf8ByteSize + text.utf8ByteSize

theorem Position.offset_advance (p : Position) (c : Char) :
    (p.advance c).offset = p.offset + c.utf8Size := by
  unfold advance
  split <;> rfl

theorem Position.offset_advanceAll (p : Position) (cs : List Char) :
    (p.advanceAll cs).offset = p.offset + byteLength cs := by
  induction cs generalizing p with
  | nil => simp [advanceAll]
  | cons c cs ih =>
      have hrest := ih (p.advance c)
      rw [byteLength_cons, ← Nat.add_assoc, ← offset_advance]
      exact hrest

theorem Span.cuts_of_append {source : String} {before text after : List Char}
    (h : source.toList = before ++ (text ++ after)) :
    Span.Cuts ⟨(Position.start.advanceAll before).offset,
        ((Position.start.advanceAll before).advanceAll text).offset⟩
      source (String.ofList before) (String.ofList text) (String.ofList after) where
  source_eq := by
    rw [← String.ofList_append, ← String.ofList_append, List.append_assoc, ← h,
      String.ofList_toList]
  start_eq := by
    rw [Position.offset_advanceAll]
    exact Nat.zero_add _
  stop_eq := by
    simp only [Position.offset_advanceAll]
    exact congrArg (· + _) (Nat.zero_add _)

namespace Token

def starts (c : Char) : Bool :=
  c == '"' || c == '[' || c.isAlpha

theorem stringBody_quote (cs : List Char) : stringBody ('"' :: cs) = ([], ['"']) := by
  unfold stringBody
  rfl

theorem stringBody_slash (c : Char) (cs : List Char) :
    stringBody ('\\' :: c :: cs) =
      ((if c = 'n' then '\n' else c) :: (stringBody cs).1, '\\' :: c :: (stringBody cs).2) := by
  rw [stringBody]
  rfl

theorem stringBody_other {c : Char} (hquote : c ≠ '"') (hslash : c ≠ '\\') (cs : List Char) :
    stringBody (c :: cs) = (c :: (stringBody cs).1, c :: (stringBody cs).2) := by
  rw [stringBody.eq_def]
  simp only [if_neg hquote, if_neg hslash]

/-- The text of a string, and what is left behind it. Cutting off some of what is left changes
nothing, because a string ends at its quote or at the end of the source. -/
theorem stringBody_cut (cs : List Char) :
    ∃ rest, cs = (stringBody cs).2 ++ rest ∧
      ∀ more, more <+: rest → stringBody ((stringBody cs).2 ++ more) = stringBody cs := by
  fun_induction stringBody cs with
  | case1 =>
      refine ⟨[], rfl, fun more hmore => ?_⟩
      rw [List.prefix_nil.1 hmore]
      rfl
  | case2 cs => exact ⟨cs, rfl, fun more _ => stringBody_quote more⟩
  | case3 c =>
      refine ⟨[], rfl, fun more hmore => ?_⟩
      rw [List.prefix_nil.1 hmore]
      rfl
  | case4 e cs value text hbody _ ih =>
      obtain ⟨rest, hrest, hcut⟩ := ih
      rw [hbody] at hrest hcut
      refine ⟨rest, congrArg ('\\' :: e :: ·) hrest, fun more hmore => ?_⟩
      simp only [List.cons_append, stringBody_slash, hcut more hmore]
  | case5 c cs hquote hslash value text hbody ih =>
      obtain ⟨rest, hrest, hcut⟩ := ih
      rw [hbody] at hrest hcut
      refine ⟨rest, congrArg (c :: ·) hrest, fun more hmore => ?_⟩
      simp only [List.cons_append, stringBody_other hquote hslash, hcut more hmore]

theorem pathBody_cut (cs : List Char) :
    ∃ rest, cs = (pathBody cs).2 ++ rest ∧
      ∀ more, more <+: rest → pathBody ((pathBody cs).2 ++ more) = pathBody cs := by
  cases hsplit : splitFirst? ']' cs with
  | some parts =>
      obtain ⟨inside, after⟩ := parts
      have hbody : pathBody cs = (inside, inside ++ [']']) := by simp only [pathBody, hsplit]
      refine ⟨after, ?_, fun more _ => ?_⟩
      · rw [hbody, splitFirst?_append hsplit]
        simp
      · have hmore : splitFirst? ']' (inside ++ [']'] ++ more) = some (inside, more) := by
          rw [List.append_assoc]
          exact splitFirst?_of_not_mem (splitFirst?_not_mem hsplit) more
        rw [hbody]
        simp only [pathBody, hmore]
  | none =>
      have hbody : pathBody cs = (cs, cs) := by simp only [pathBody, hsplit]
      refine ⟨[], by rw [hbody, List.append_nil], fun more hmore => ?_⟩
      rw [hbody, List.prefix_nil.1 hmore, List.append_nil, hbody]

theorem word_cut (cs : List Char) :
    ∃ rest, cs = cs.takeWhile isWordChar ++ rest ∧ (∀ c ∈ rest.head?, isWordChar c = false) ∧
      ∀ more, more <+: rest →
        (cs.takeWhile isWordChar ++ more).takeWhile isWordChar = cs.takeWhile isWordChar := by
  have hall : ∀ c ∈ cs.takeWhile isWordChar, isWordChar c = true :=
    List.all_eq_true.1 List.all_takeWhile
  have hstop : ∀ c ∈ (cs.dropWhile isWordChar).head?, isWordChar c = false := by
    intro c hc
    have hhead := List.head?_dropWhile_not isWordChar cs
    rw [hc] at hhead
    exact hhead
  refine ⟨cs.dropWhile isWordChar, List.takeWhile_append_dropWhile.symm, hstop,
    fun more hmore => ?_⟩
  refine takeWhile_append_of_head? hall fun c hc => hstop c ?_
  obtain ⟨rest, hrest⟩ := hmore
  rw [← hrest, List.head?_append, hc]
  rfl

def wordLexeme (text : List Char) : Lexeme :=
  let value := String.ofList (text.map Char.toLower)
  ⟨if isReserved value then .keyword else .identifier, value, text⟩

theorem lexeme?_word_text {text rest : List Char} (hhead : ∃ c ∈ text.head?, c.isAlpha = true)
    (htext : ∀ c ∈ text, isWordChar c = true) (hrest : ∀ c ∈ rest.head?, isWordChar c = false) :
    lexeme? (text ++ rest) = some (wordLexeme text) := by
  obtain ⟨c, hc, halpha⟩ := hhead
  obtain ⟨cs, rfl⟩ := List.head?_eq_some_iff.1 hc
  have hquote : c ≠ '"' := by
    rintro rfl
    exact absurd halpha (by decide)
  have hbracket : c ≠ '[' := by
    rintro rfl
    exact absurd halpha (by decide)
  have hword : (cs ++ rest).takeWhile isWordChar = cs :=
    takeWhile_append_of_head? (fun d hd => htext d (List.mem_cons_of_mem c hd)) hrest
  rw [List.cons_append, lexeme?, if_neg hquote, if_neg hbracket, if_pos halpha, hword]
  rfl

/-- The shape of a token's text by the kind of the token, and what a word cannot be followed by. -/
def IsWritten (t : Token) (text after : String) : Prop :=
  match t.kind with
  | .string => text.toList.head? = some '"'
  | .path => text.toList.head? = some '['
  | .keyword | .identifier =>
      (∃ c ∈ text.toList.head?, c.isAlpha = true) ∧
      (∀ c ∈ text.toList, c.isAlphanum = true ∨ c = '_' ∨ c = '-') ∧
      (∀ c ∈ after.toList.head?, ¬ (c.isAlphanum = true ∨ c = '_' ∨ c = '-')) ∧
      t.value = text.toLower ∧ (t.kind = .keyword ↔ t.value ∈ reservedWords)
  | .endOfInput => False

def Lexeme.token (l : Lexeme) (p : Position) : Token :=
  ⟨l.kind, l.value, p.line, p.column, ⟨p.offset, (p.advanceAll l.text).offset⟩⟩

theorem Lexeme.start_token (l : Lexeme) (p : Position) (before : List Char) :
    (l.token (p.advanceAll before)).span.start = p.offset + byteLength before :=
  p.offset_advanceAll before

theorem Lexeme.stop_token (l : Lexeme) (p : Position) (before : List Char) :
    (l.token (p.advanceAll before)).span.stop =
      p.offset + byteLength before + byteLength l.text := by
  rw [← p.offset_advanceAll before]
  exact Position.offset_advanceAll _ l.text

theorem isWordChar_iff {c : Char} :
    isWordChar c = true ↔ c.isAlphanum = true ∨ c = '_' ∨ c = '-' := by
  simp [isWordChar, or_assoc]

theorem isWordChar_of_isAlpha {c : Char} (h : c.isAlpha = true) : isWordChar c = true :=
  isWordChar_iff.2 (.inl (Bool.or_eq_true_iff.2 (.inl h)))

theorem isWritten_word {text rest : List Char} (hhead : ∃ c ∈ text.head?, c.isAlpha = true)
    (htext : ∀ c ∈ text, isWordChar c = true) (hrest : ∀ c ∈ rest.head?, isWordChar c = false)
    (p : Position) :
    let value := String.ofList (text.map Char.toLower)
    (Lexeme.token ⟨if isReserved value then .keyword else .identifier, value, text⟩ p).IsWritten
      (String.ofList text) (String.ofList rest) := by
  intro value
  have hvalue : value = (String.ofList text).toLower := by
    apply String.ext
    change _ = ((String.ofList text).map Char.toLower).toList
    rw [String.toList_map, String.toList_ofList, String.toList_ofList]
  have hword : (∃ c ∈ (String.ofList text).toList.head?, c.isAlpha = true) ∧
      (∀ c ∈ (String.ofList text).toList, c.isAlphanum = true ∨ c = '_' ∨ c = '-') ∧
      (∀ c ∈ (String.ofList rest).toList.head?, ¬ (c.isAlphanum = true ∨ c = '_' ∨ c = '-')) := by
    rw [String.toList_ofList, String.toList_ofList]
    refine ⟨hhead, fun c hc => isWordChar_iff.1 (htext c hc), fun c hc hword => ?_⟩
    rw [← isWordChar_iff, hrest c hc] at hword
    cases hword
  obtain ⟨hfirst, hchars, hafter⟩ := hword
  by_cases hreserved : isReserved value = true
  · have hmem : value ∈ reservedWords := List.contains_iff_mem.1 hreserved
    rw [if_pos hreserved]
    exact ⟨hfirst, hchars, hafter, hvalue, iff_of_true rfl hmem⟩
  · have hmem : value ∉ reservedWords := fun hmem => hreserved (List.contains_iff_mem.2 hmem)
    rw [if_neg hreserved]
    exact ⟨hfirst, hchars, hafter, hvalue, iff_of_false TokenKind.noConfusion hmem⟩

theorem lexeme?_cut {cs : List Char} {l : Lexeme} (h : lexeme? cs = some l) :
    ∃ rest, cs = l.text ++ rest ∧ l.text ≠ [] ∧
      (∀ p, (l.token p).IsWritten (String.ofList l.text) (String.ofList rest)) ∧
      ∀ more, more <+: rest → lexeme? (l.text ++ more) = some l := by
  cases cs with
  | nil => cases h
  | cons c cs =>
      simp only [lexeme?] at h
      split at h
      · next hquote =>
          cases h
          obtain ⟨rest, hrest, hcut⟩ := stringBody_cut cs
          refine ⟨rest, congrArg (c :: ·) hrest, List.cons_ne_nil _ _, fun p => ?_,
            fun more hmore => ?_⟩
          · simp [IsWritten, Lexeme.token, hquote]
          · simp only [List.cons_append, lexeme?, if_pos hquote, hcut more hmore]
      split at h
      · next hquote hbracket =>
          cases h
          obtain ⟨rest, hrest, hcut⟩ := pathBody_cut cs
          refine ⟨rest, congrArg (c :: ·) hrest, List.cons_ne_nil _ _, fun p => ?_,
            fun more hmore => ?_⟩
          · simp [IsWritten, Lexeme.token, hbracket]
          · simp only [List.cons_append, lexeme?, if_neg hquote, if_pos hbracket, hcut more hmore]
      split at h
      · next hquote hbracket halpha =>
          cases h
          obtain ⟨rest, hrest, hstop, hcut⟩ := word_cut cs
          refine ⟨rest, congrArg (c :: ·) hrest, List.cons_ne_nil _ _, fun p => ?_,
            fun more hmore => ?_⟩
          · refine isWritten_word ⟨c, rfl, halpha⟩ (List.forall_mem_cons.2 ⟨?_, ?_⟩) hstop p
            · exact isWordChar_of_isAlpha halpha
            · exact List.all_eq_true.1 List.all_takeWhile
          · simp only [List.cons_append, lexeme?, if_neg hquote, if_neg hbracket, if_pos halpha,
              hcut more hmore]
      · cases h

theorem lexeme?_append {l : Lexeme} {rest : List Char} (h : lexeme? (l.text ++ rest) = some l) :
    l.text ≠ [] ∧ (∀ p, (l.token p).IsWritten (String.ofList l.text) (String.ofList rest)) ∧
      ∀ more, more <+: rest → lexeme? (l.text ++ more) = some l := by
  obtain ⟨rest', hrest, hlexeme⟩ := lexeme?_cut h
  rwa [← List.append_cancel_left hrest] at hlexeme

theorem lexeme?_of_not_starts {c : Char} (h : starts c = false) (cs : List Char) :
    lexeme? (c :: cs) = none := by
  simp only [starts, Bool.or_eq_false_iff, beq_eq_false_iff_ne] at h
  obtain ⟨⟨hquote, hbracket⟩, halpha⟩ := h
  simp [lexeme?, hquote, hbracket, halpha]

theorem exists_lexeme {c : Char} (h : starts c = true) (cs : List Char) :
    ∃ l, lexeme? (c :: cs) = some l := by
  simp only [lexeme?]
  split
  · exact ⟨_, rfl⟩
  split
  · exact ⟨_, rfl⟩
  split
  · exact ⟨_, rfl⟩
  · simp_all [starts]

/-- `Reads p cs ts q rest`: from the place `p` with `cs` ahead the tokens `ts` are read, each behind
a gap, and the last of them ends at the place `q` with `rest` ahead. -/
inductive Reads : Position → List Char → List Token → Position → List Char → Prop
  | done (p : Position) (cs : List Char) : Reads p cs [] p cs
  | next {p q : Position} {gap cs rest : List Char} {l : Lexeme} {ts : List Token}
      (hgap : ∀ c ∈ gap, starts c = false) (hl : lexeme? (l.text ++ cs) = some l)
      (h : Reads ((p.advanceAll gap).advanceAll l.text) cs ts q rest) :
      Reads p (gap ++ (l.text ++ cs)) (l.token (p.advanceAll gap) :: ts) q rest

variable {p q : Position} {cs rest : List Char} {ts : List Token}

theorem scanFrom_gap {gap : List Char} (hgap : ∀ c ∈ gap, starts c = false) (p : Position)
    (cs : List Char) : scanFrom 0 p (gap ++ cs) = scanFrom 0 (p.advanceAll gap) cs := by
  induction gap generalizing p with
  | nil => rfl
  | cons c gap ih =>
      obtain ⟨hc, hgap⟩ := List.forall_mem_cons.1 hgap
      rw [List.cons_append, scanFrom, lexeme?_of_not_starts hc]
      exact ih hgap (p.advance c)

theorem scanFrom_lexeme {l : Lexeme} (h : lexeme? (l.text ++ cs) = some l) (p : Position) :
    scanFrom 0 p (l.text ++ cs) = l.token p :: scanFrom 0 (p.advanceAll l.text) cs := by
  obtain ⟨hne, -, -⟩ := lexeme?_append h
  obtain ⟨c, text, htext⟩ := List.exists_cons_of_ne_nil hne
  rw [htext, List.cons_append] at h ⊢
  rw [scanFrom, h]
  refine congrArg (l.token p :: ·) ?_
  rw [htext]
  exact scanFrom_length (p.advance c) text cs

theorem Reads.scanFrom_eq (h : Reads p cs ts q rest) :
    scanFrom 0 p cs = ts ++ scanFrom 0 q rest := by
  induction h with
  | done p cs => rfl
  | next hgap hl _ ih => rw [scanFrom_gap hgap, scanFrom_lexeme hl, ih, List.cons_append]

theorem exists_reads (p : Position) (cs : List Char) :
    ∃ ts q rest, Reads p cs ts q rest ∧ ∀ c ∈ rest, starts c = false := by
  induction hn : cs.length using Nat.strongRecOn generalizing p cs with
  | ind n ih =>
      have hgap : ∀ c ∈ cs.takeWhile (!starts ·), starts c = false := fun c hc => by
        simpa using List.all_eq_true.1 List.all_takeWhile c hc
      have hsplit : cs.takeWhile (!starts ·) ++ cs.dropWhile (!starts ·) = cs :=
        List.takeWhile_append_dropWhile
      cases hdrop : cs.dropWhile (!starts ·) with
      | nil =>
          rw [hdrop, List.append_nil] at hsplit
          rw [hsplit] at hgap
          exact ⟨[], p, cs, .done p cs, hgap⟩
      | cons c ds =>
          have hc : starts c = true := by
            have hhead := List.head?_dropWhile_not (!starts ·) cs
            rw [hdrop] at hhead
            simpa using hhead
          obtain ⟨l, hl⟩ := exists_lexeme hc ds
          obtain ⟨after, hafter, hne, -, -⟩ := lexeme?_cut hl
          rw [hafter] at hl hdrop
          rw [hdrop] at hsplit
          have hlt : after.length < n := by
            have hlength := congrArg List.length hsplit
            have := List.length_pos_iff.2 hne
            simp only [List.length_append] at hlength
            omega
          obtain ⟨ts, q, rest, hreads, hrest⟩ := ih _ hlt _ after rfl
          rw [← hsplit]
          exact ⟨_, q, rest, .next hgap hl hreads, hrest⟩

theorem Reads.cut (h : Reads p cs ts q rest) :
    ∃ used, cs = used ++ rest ∧ q = p.advanceAll used ∧
      ∀ more, more <+: rest → Reads p (used ++ more) ts q more := by
  induction h with
  | done p cs => exact ⟨[], rfl, rfl, fun more _ => .done p more⟩
  | @next p q gap cs rest l ts hgap hl h ih =>
      obtain ⟨used, rfl, hq, hcut⟩ := ih
      refine ⟨gap ++ (l.text ++ used), ?_, ?_, fun more hmore => ?_⟩
      · simp only [List.append_assoc]
      · rw [hq, Position.advanceAll_append, Position.advanceAll_append]
      · obtain ⟨-, -, hlcut⟩ := lexeme?_append hl
        have hbehind : used ++ more <+: used ++ rest := (List.prefix_append_right_inj used).2 hmore
        rw [List.append_assoc, List.append_assoc]
        exact .next hgap (hlcut _ hbehind) (hcut more hmore)

theorem Reads.exists_lexeme_of_mem (h : Reads p cs ts q rest) {t : Token} (ht : t ∈ ts) :
    ∃ before l after, cs = before ++ (l.text ++ after) ∧
      lexeme? (l.text ++ after) = some l ∧ t = l.token (p.advanceAll before) := by
  induction h with
  | done => cases ht
  | @next p q gap cs rest l ts hgap hl h ih =>
      rcases List.mem_cons.1 ht with rfl | ht
      · exact ⟨gap, l, cs, rfl, hl, rfl⟩
      · obtain ⟨before, l', after, hcs, hl', rfl⟩ := ih ht
        refine ⟨gap ++ (l.text ++ before), l', after, ?_, hl', ?_⟩
        · rw [hcs]
          simp only [List.append_assoc]
        · rw [Position.advanceAll_append, Position.advanceAll_append]

theorem Reads.kind_ne_endOfInput (h : Reads p cs ts q rest) {t : Token} (ht : t ∈ ts) :
    t.kind ≠ .endOfInput := by
  obtain ⟨before, l, after, -, hl, rfl⟩ := h.exists_lexeme_of_mem ht
  obtain ⟨-, hwritten, -⟩ := lexeme?_append hl
  intro hend
  have hnone := hwritten (p.advanceAll before)
  rw [IsWritten, hend] at hnone
  exact hnone

theorem Reads.offset_le_start (h : Reads p cs ts q rest) {t : Token} (ht : t ∈ ts) :
    p.offset ≤ t.span.start := by
  obtain ⟨before, l, after, -, -, rfl⟩ := h.exists_lexeme_of_mem ht
  rw [l.start_token]
  exact Nat.le_add_right _ _

theorem Reads.pairwise (h : Reads p cs ts q rest) :
    ts.Pairwise fun a b => a.span.stop ≤ b.span.start := by
  induction h with
  | done => exact .nil
  | next _ _ h ih => exact .cons (fun _ hb => h.offset_le_start hb) ih

theorem Reads.starts_eq_false (h : Reads p cs ts q rest) (hrest : ∀ c ∈ rest, starts c = false)
    {before after : List Char} {c : Char} (hcs : cs = before ++ c :: after)
    (houtside : ∀ t ∈ ts, p.offset + byteLength before < t.span.start ∨
      t.span.stop ≤ p.offset + byteLength before) :
    starts c = false := by
  induction h generalizing before with
  | done p cs => exact hrest c (by simp [hcs])
  | @next p q gap cs rest l ts hgap hl h ih =>
      obtain ⟨hhead, htail⟩ := List.forall_mem_cons.1 houtside
      -- The character is in the gap, in the first token or behind it.
      rcases append_cons_eq_append hcs.symm with ⟨more, rfl⟩ | ⟨before', rfl, hbehind⟩
      · exact hgap c (by simp)
      rcases append_cons_eq_append hbehind.symm with ⟨more, htext⟩ | ⟨before'', rfl, hafter⟩
      · rw [l.start_token, l.stop_token, htext] at hhead
        simp only [byteLength_append, byteLength_cons] at hhead
        have := c.utf8Size_pos
        omega
      · refine ih hrest hafter fun t ht => ?_
        have hoffset : ((p.advanceAll gap).advanceAll l.text).offset + byteLength before'' =
            p.offset + byteLength (gap ++ (l.text ++ before'')) := by
          rw [Position.offset_advanceAll, Position.offset_advanceAll, byteLength_append,
            byteLength_append]
          omega
        rw [hoffset]
        exact htail t ht

theorem exists_reads_tokenize (source : String) :
    ∃ ts q rest eof, Reads .start source.toList ts q rest ∧ (∀ c ∈ rest, starts c = false) ∧
      tokenize source = ts ++ [eof] ∧ eof.kind = .endOfInput ∧
      eof.span = .empty source.utf8ByteSize := by
  obtain ⟨ts, q, rest, hreads, hrest⟩ := exists_reads .start source.toList
  obtain ⟨used, hsource, hq, -⟩ := hreads.cut
  have hoffset : (q.advanceAll rest).offset = source.utf8ByteSize := by
    rw [hq, ← Position.advanceAll_append, ← hsource, Position.offset_advanceAll, byteLength,
      String.ofList_toList]
    exact Nat.zero_add _
  have hend := scanFrom_gap hrest q []
  rw [List.append_nil, scanFrom_nil, hoffset] at hend
  have htokens := hreads.scanFrom_eq
  rw [hend] at htokens
  exact ⟨ts, q, rest, _, hreads, hrest, htokens, rfl, rfl⟩

/-- The tokens of a source tile it. Each covers a part of the text that is written as its kind asks,
they come in the order of the text and do not overlap, and no character outside them could start a
token. -/
theorem tokenize_tiles (source : String) :
    ∃ ts eof, tokenize source = ts ++ [eof] ∧
      eof.kind = .endOfInput ∧ eof.span = .empty source.utf8ByteSize ∧
      (∀ t ∈ ts, t.kind ≠ .endOfInput ∧ t.span.start < t.span.stop ∧
        ∃ before text after, t.span.Cuts source before text after ∧ t.IsWritten text after) ∧
      (ts.Pairwise fun a b => a.span.stop ≤ b.span.start) ∧
      ∀ before c after, source = before ++ String.singleton c ++ after →
        (∀ t ∈ ts, before.utf8ByteSize < t.span.start ∨ t.span.stop ≤ before.utf8ByteSize) →
        c ≠ '"' ∧ c ≠ '[' ∧ c.isAlpha = false := by
  obtain ⟨ts, q, rest, eof, hreads, hrest, htokens, hkind, hspan⟩ := exists_reads_tokenize source
  refine ⟨ts, eof, htokens, hkind, hspan, fun t ht => ?_, hreads.pairwise,
    fun before c after hsource houtside => ?_⟩
  · obtain ⟨before, l, after, hsource, hl, rfl⟩ := hreads.exists_lexeme_of_mem ht
    obtain ⟨hne, hwritten, -⟩ := lexeme?_append hl
    have hpos := byteLength_pos hne
    refine ⟨hreads.kind_ne_endOfInput ht, ?_, String.ofList before, String.ofList l.text,
      String.ofList after, Span.cuts_of_append hsource, hwritten _⟩
    rw [l.start_token, l.stop_token]
    omega
  · have hchars : source.toList = before.toList ++ c :: after.toList := by
      rw [hsource, String.toList_append, String.toList_append, String.toList_singleton,
        List.append_assoc, List.singleton_append]
    have hc : starts c = false := by
      refine hreads.starts_eq_false hrest hchars ?_
      rw [byteLength, String.ofList_toList]
      simpa [Position.start] using houtside
    simpa [starts, and_assoc] using hc

end Token

end EnglishPages
