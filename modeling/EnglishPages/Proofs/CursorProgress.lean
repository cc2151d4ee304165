import EnglishPages.Proofs.ParserScan
import EnglishPages.Proofs.Phrases
import Mathlib.Logic.Relation

/-!
How far the parser reads. No reader passes a token that marks the end of the input, so the cursor
never goes beyond the first of them, whatever stands behind it. A statement passes at least the token
at which it is called, also if it yields nothing; so every loop over statements comes to an end, and
all of them together call for no more statements than there are tokens before the end.
-/

namespace EnglishPages

open Scan

namespace Cursor

/-- `c.Passes used c'`: the tokens `used` stand at `c`, none of them marks the end of the input, and
`c'` stands behind them. -/
structure Passes (c : Cursor) (used : List Token) (c' : Cursor) : Prop where
  rest_eq : c.rest = used ++ c'.rest
  isEnd_eq : ∀ t ∈ used, t.isEnd = false

def Reaches (c c' : Cursor) : Prop := ∃ used, c.Passes used c'

theorem Reaches.refl (c : Cursor) : c.Reaches c := ⟨[], rfl, List.forall_mem_nil _⟩

theorem Passes.trans {c c' c'' : Cursor} {us vs : List Token} (h : c.Passes us c')
    (h' : c'.Passes vs c'') : c.Passes (us ++ vs) c'' where
  rest_eq := by rw [h.rest_eq, h'.rest_eq, List.append_assoc]
  isEnd_eq := List.forall_mem_append.2 ⟨h.isEnd_eq, h'.isEnd_eq⟩

theorem Reaches.trans {c c' c'' : Cursor} (h : c.Reaches c') (h' : c'.Reaches c'') :
    c.Reaches c'' := by
  obtain ⟨us, hus⟩ := h
  obtain ⟨vs, hvs⟩ := h'
  exact ⟨us ++ vs, hus.trans hvs⟩

theorem exists_place (c : Cursor) :
    ∃ (eof : Token) (heof : eof.isEnd = true) (post : List Token) (last : Span) (ts : List Token),
      c = place heof post last ts ∧ ∀ t ∈ ts, t.isEnd = false := by
  obtain ⟨last, rest, ended⟩ := c
  obtain ⟨eof, hfind⟩ := Option.isSome_iff_exists.1 (List.find?_isSome.2 ended)
  obtain ⟨heof, ts, post, rfl, hts⟩ := List.find?_eq_some_iff_append.1 hfind
  exact ⟨eof, heof, post, last, ts, rfl, fun t ht => by simpa using hts t ht⟩

theorem reaches_of_phrase (read : Cursor → Cursor) (c : Cursor) {f : List Token → List Token}
    (hf : IsPhrase f) (hread : ∀ {eof : Token} (heof : eof.isEnd = true) (post : List Token)
      (last : Span) (ts : List Token),
      read (place heof post last ts) = placeAfter heof post last ts (f ts)) :
    c.Reaches (read c) := by
  obtain ⟨eof, heof, post, last, ts, rfl, hts⟩ := c.exists_place
  have hcut : f ts ++ ts.drop (f ts).length = ts := List.prefix_iff_eq_append.1 (hf.front ts)
  rw [hread]
  refine ⟨f ts, ?_, fun t ht => hts t ((hf.front ts).subset ht)⟩
  change ts ++ eof :: post = f ts ++ (ts.drop (f ts).length ++ eof :: post)
  rw [← List.append_assoc, hcut]

theorem passes_advance {c : Cursor} (h : c.atEnd = false) : c.Passes [c.peek] c.advance := by
  refine ⟨?_, List.forall_mem_singleton.2 h⟩
  rw [advance, dif_pos h]
  exact (List.cons_head_tail c.rest_ne_nil).symm

theorem reaches_advance (c : Cursor) : c.Reaches c.advance := by
  cases h : c.atEnd with
  | false => exact ⟨_, passes_advance h⟩
  | true =>
      have hsame : c.advance = c := dif_neg (by simp [h])
      rw [hsame]
      exact .refl c

theorem reaches_string (c : Cursor) : c.Reaches c.string.2 :=
  reaches_of_phrase (fun c => c.string.2) c (isPhrase_leading _) fun _ _ _ _ =>
    congrArg Prod.snd string_place

theorem reaches_words (c : Cursor) : c.Reaches c.words.2 :=
  reaches_of_phrase (fun c => c.words.2) c (isPhrase_takeWhile _) fun _ _ _ _ =>
    congrArg Prod.snd words_place

theorem reaches_attributes (c : Cursor) : c.Reaches c.attributes.2 :=
  reaches_of_phrase (fun c => c.attributes.2) c isPhrase_withPhrase fun _ _ _ _ =>
    congrArg Prod.snd attributes_place

theorem reaches_type (c : Cursor) : c.Reaches c.type.2 :=
  reaches_of_phrase (fun c => c.type.2) c (isPhrase_leading _) fun _ _ _ _ =>
    congrArg Prod.snd type_place

theorem reaches_skipFrom (c : Cursor) : c.Reaches c.skipFrom :=
  reaches_of_phrase skipFrom c (isPhrase_leading _) fun _ _ _ _ => skipFrom_place

theorem reaches_path (c : Cursor) : c.Reaches c.path.2 :=
  reaches_of_phrase (fun c => c.path.2) c isPhrase_pathPhrase fun _ _ _ _ =>
    congrArg Prod.snd path_place

theorem reaches_functionName (c : Cursor) : c.Reaches (Parser.functionName c).2 :=
  reaches_of_phrase (fun c => (Parser.functionName c).2) c (isPhrase_leading _) fun _ _ _ _ =>
    congrArg Prod.snd functionName_place

theorem reaches_addition (start word : Token) (c : Cursor) :
    c.Reaches (Parser.addition start word c).2 := by
  have hcursor : (Parser.addition start word c).2 = c.string.2.attributes.2 := by
    simp only [Parser.addition]
    split <;> rfl
  rw [hcursor]
  exact c.reaches_string.trans c.string.2.reaches_attributes

theorem reaches_importation (start : Token) (c : Cursor) :
    c.Reaches (Parser.importation start c).2 :=
  (c.reaches_type.trans c.type.2.reaches_skipFrom).trans c.type.2.skipFrom.reaches_path

def ahead (c : Cursor) : Nat := (c.rest.takeWhile (!·.isEnd)).length

theorem Passes.ahead_eq {c c' : Cursor} {used : List Token} (h : c.Passes used c') :
    c.ahead = used.length + c'.ahead := by
  have hused : ∀ t ∈ used, (!t.isEnd) = true := fun t ht => by simp [h.isEnd_eq t ht]
  rw [ahead, h.rest_eq, List.takeWhile_append_of_pos hused, List.length_append]
  rfl

theorem Reaches.ahead_le {c c' : Cursor} (h : c.Reaches c') : c'.ahead ≤ c.ahead := by
  obtain ⟨used, hused⟩ := h
  rw [hused.ahead_eq]
  exact Nat.le_add_left _ _

theorem expect_of_isKeyword {c : Cursor} {word : String} (h : c.peek.isKeyword word = true) :
    c.expect .keyword (some word) = .ok c.peek := by
  simp_all [expect, Token.isKeyword]

theorem isKeyword_of_expect {c : Cursor} {word : String} {t : Token}
    (h : c.expect .keyword (some word) = .ok t) : c.peek.isKeyword word = true := by
  unfold expect at h
  split at h
  · cases h
  next hkind =>
  dsimp only at h
  split at h
  · cases h
  next hvalue => simp_all [Token.isKeyword]

end Cursor

namespace Parser

open Cursor

/-! What a statement does: it is a page or a function, which read on in a loop, or it ends by
itself. -/

def stop {α : Type} {p : Cursor → Prop} (r : Except ParseError (α × { c : Cursor // p c })) :
    Except ParseError Cursor :=
  r.map fun r => r.2.1

/-- A reading from `c` on that calls for `n` statements stops behind at least as many tokens, or it
fails at a token that is not behind the end of the input. -/
def Stops (c : Cursor) (n : Nat) : Except ParseError Cursor → Prop
  | .ok c' => ∃ used, c.Passes used c' ∧ n ≤ used.length
  | .error e => (∃ c' mismatch, c.Reaches c' ∧ e = .atToken c'.peek mismatch) ∧ n ≤ c.ahead

theorem Stops.behind {c c' : Cursor} {us : List Token} {m n : Nat} {r : Except ParseError Cursor}
    (hr : Stops c' n r) (h : c.Passes us c') (hm : m ≤ us.length) : Stops c (m + n) r := by
  cases r with
  | ok c'' =>
      obtain ⟨vs, hvs, hn⟩ := hr
      refine ⟨us ++ vs, h.trans hvs, ?_⟩
      rw [List.length_append]
      omega
  | error e =>
      obtain ⟨⟨c'', mismatch, hreach, he⟩, hn⟩ := hr
      refine ⟨⟨c'', mismatch, .trans ⟨us, h⟩ hreach, he⟩, ?_⟩
      rw [h.ahead_eq]
      omega

theorem Stops.le_ahead {c : Cursor} {n : Nat} {r : Except ParseError Cursor} (h : Stops c n r) :
    n ≤ c.ahead := by
  cases r with
  | ok c' =>
      obtain ⟨used, hused, hn⟩ := h
      rw [hused.ahead_eq]
      omega
  | error e => exact h.2

theorem Stops.reaches {c c' : Cursor} {n : Nat} (h : Stops c n (.ok c')) : c.Reaches c' := by
  obtain ⟨used, hused, -⟩ := h
  exact ⟨used, hused⟩

theorem stops_of_reaches {c c' : Cursor} (h : c.Reaches c') : Stops c 0 (.ok c') := by
  obtain ⟨used, hused⟩ := h
  exact ⟨used, hused, Nat.zero_le _⟩

section

variable {c : Cursor} {h : c.atEnd = false}

theorem stops_add (hword : c.peek.isKeyword "add" = true) :
    Stops c.advance 0 (stop (add c h)) := by
  rw [add, expect_of_isKeyword hword]
  by_cases hnext : c.advance.peek.isWord = true
  · have hexpect : c.advance.expectWord = .ok c.advance.peek := by simp [expectWord, hnext]
    rw [hexpect]
    exact stops_of_reaches (c.advance.reaches_advance.trans (reaches_addition _ _ _))
  · have hexpect : c.advance.expectWord =
        .error (.atToken c.advance.peek (.kind .word c.advance.peek.kind)) := by
      simp [expectWord, hnext]
    rw [hexpect]
    exact ⟨⟨_, _, .refl _, rfl⟩, Nat.zero_le _⟩

theorem stops_importing (hword : c.peek.isKeyword "import" = true) :
    Stops c.advance 0 (stop (importing c h)) := by
  rw [importing, expect_of_isKeyword hword]
  exact stops_of_reaches (reaches_importation c.peek c.advance)

theorem stop_create (hword : c.peek.isKeyword "create" = true) :
    stop (create c h) = if c.advance.peek.isKeyword "page" then
      stop (statements false c.advance.advance) else .ok c.advance := by
  rw [create, expect_of_isKeyword hword]
  change stop (ite _ _ _) = _
  split
  · cases statements false c.advance.advance <;> rfl
  · rfl

theorem stop_function (hword : c.peek.isKeyword "function" = true) :
    stop (function c h) = stop (statements true (functionName c.advance).2) := by
  rw [function, expect_of_isKeyword hword]
  change stop (statements true (functionName c.advance).2 >>= _) = _
  cases statements true (functionName c.advance).2 <;> rfl

end

theorem statement_cases (c : Cursor) (h : c.atEnd = false) :
    (c.peek.isKeyword "create" = true ∧ statement c h = create c h) ∨
      (c.peek.isKeyword "function" = true ∧ statement c h = function c h) ∨
      (c.peek.isKeyword "create" = false ∧ c.peek.isKeyword "function" = false ∧
        Stops c.advance 0 (stop (statement c h))) := by
  have hstatement := statement.eq_def c h
  by_cases hkind : c.peek.kind = .keyword
  · have hkeyword : ∀ word, c.peek.isKeyword word = true ↔ c.peek.value = word := fun word => by
      simp [Token.isKeyword, hkind]
    rw [if_pos hkind] at hstatement
    simp only [← Bool.not_eq_true, hkeyword]
    split at hstatement
    case h_1 hvalue => exact .inl ⟨hvalue, hstatement⟩
    case h_3 hvalue => exact .inr (.inl ⟨hvalue, hstatement⟩)
    case h_2 hvalue =>
      rw [hvalue, hstatement]
      exact .inr (.inr ⟨by decide, by decide, stops_add ((hkeyword _).2 hvalue)⟩)
    case h_4 hvalue =>
      rw [hvalue, hstatement]
      exact .inr (.inr ⟨by decide, by decide, stops_importing ((hkeyword _).2 hvalue)⟩)
    case h_5 hvalue | h_6 hvalue =>
      rw [hvalue, hstatement]
      exact .inr (.inr ⟨by decide, by decide, stops_of_reaches c.advance.reaches_string⟩)
    case h_7 hcreate _ hfunction _ _ _ =>
      refine .inr (.inr ⟨hcreate, hfunction, ?_⟩)
      rw [hstatement]
      split
      · exact stops_of_reaches c.advance.reaches_attributes
      · exact stops_of_reaches (.refl _)
  · have hword : ∀ word, c.peek.isKeyword word = false := fun word => by
      simp [Token.isKeyword, hkind]
    rw [if_neg hkind] at hstatement
    refine .inr (.inr ⟨hword _, hword _, ?_⟩)
    rw [hstatement]
    exact stops_of_reaches (.refl _)

def goesOn (inFunction : Bool) (c : Cursor) : Bool :=
  !c.atEnd && !(inFunction && c.peek.isKeyword "function")

theorem stop_statements_of_not_goesOn {inFunction : Bool} {c : Cursor}
    (h : goesOn inFunction c = false) : stop (statements inFunction c) = .ok c := by
  rw [statements]
  split
  · next hmore =>
      have hfunction : (inFunction && c.peek.isKeyword "function") = true := by
        simpa [goesOn, hmore] using h
      rw [if_pos hfunction]
      rfl
  · rfl

theorem stop_statements_of_goesOn {inFunction : Bool} {c : Cursor}
    (h : goesOn inFunction c = true) (hmore : c.atEnd = false) :
    stop (statements inFunction c) =
      stop (statement c hmore) >>= fun c' => stop (statements inFunction c') := by
  have hfunction : (inFunction && c.peek.isKeyword "function") = false :=
    (Bool.not_eq_true' _).mp (Bool.and_eq_true_iff.1 h).2
  rw [statements, dif_pos hmore, if_neg (Bool.eq_false_iff.1 hfunction)]
  cases statement c hmore with
  | error e => rfl
  | ok r =>
      change stop (statements inFunction r.2.1 >>= _) = stop (statements inFunction r.2.1)
      cases statements inFunction r.2.1 <;> rfl

/-- What the parser is at: a statement, a loop over statements, or the loop over the words of a list
of attributes. -/
inductive Activation where
  | statement (c : Cursor)
  | statements (inFunction : Bool) (c : Cursor)
  | words (c : Cursor)

/-- `Ends a n`: the run of `a` comes to its end, and in it `n` statements are called for, those in
pages and functions included. A statement that is neither calls for no other; it may go through a
list of attributes, wherever that starts. -/
inductive Ends : Activation → Nat → Prop
  | page {c : Cursor} {n : Nat} (hcreate : c.peek.isKeyword "create" = true)
      (hpage : c.advance.peek.isKeyword "page" = true)
      (h : Ends (.statements false c.advance.advance) n) : Ends (.statement c) (1 + n)
  | function {c : Cursor} {n : Nat} (hfunction : c.peek.isKeyword "function" = true)
      (h : Ends (.statements true (functionName c.advance).2) n) : Ends (.statement c) (1 + n)
  | single {c : Cursor}
      (hpage : (c.peek.isKeyword "create" && c.advance.peek.isKeyword "page") = false)
      (hfunction : c.peek.isKeyword "function" = false)
      (hwords : ∀ c', c.Reaches c' → Ends (.words c') 0) : Ends (.statement c) 1
  | last {inFunction : Bool} {c : Cursor} (h : goesOn inFunction c = false) :
      Ends (.statements inFunction c) 0
  | failed {inFunction : Bool} {c : Cursor} {hc : c.atEnd = false} {e : ParseError} {n : Nat}
      (hgo : goesOn inFunction c = true) (herror : Parser.statement c hc = .error e)
      (h : Ends (.statement c) n) : Ends (.statements inFunction c) n
  | next {inFunction : Bool} {c : Cursor} {hc : c.atEnd = false} {r : Option Node × c.Beyond}
      {m n : Nat} (hgo : goesOn inFunction c = true) (hok : Parser.statement c hc = .ok r)
      (h : Ends (.statement c) m) (hnext : Ends (.statements inFunction r.2.1) n) :
      Ends (.statements inFunction c) (m + n)
  | lastWord {c : Cursor} (h : ¬ (c.peek.isWord = true ∧ c.peek.value ∉ statementWords)) :
      Ends (.words c) 0
  | nextWord {c : Cursor} (h : c.peek.isWord = true ∧ c.peek.value ∉ statementWords)
      (hnext : Ends (.words c.advance) 0) : Ends (.words c) 0

theorem ends_words (c : Cursor) : Ends (.words c) 0 := by
  fun_induction words c with
  | case1 c h ws c' hws ih => exact .nextWord h ih
  | case2 c h => exact .lastWord h

def LoopEnds (c : Cursor) : Prop :=
  ∀ inFunction, ∃ n, Ends (.statements inFunction c) n ∧
    Stops c n (stop (statements inFunction c))

theorem ends_statement {c : Cursor} (h : c.atEnd = false)
    (hinner : ∀ c', c'.ahead < c.ahead → LoopEnds c') :
    ∃ n, 0 < n ∧ Ends (.statement c) n ∧ Stops c n (stop (statement c h)) := by
  have hfirst := passes_advance h
  -- A loop in the statement starts at a place behind its first token.
  have hbehind : ∀ {c'}, c.advance.Reaches c' → ∃ us, c.Passes us c' ∧ 1 ≤ us.length := by
    rintro c' ⟨us, hus⟩
    exact ⟨_, hfirst.trans hus, Nat.le_add_left 1 us.length⟩
  have hless : ∀ {c'}, c.advance.Reaches c' → c'.ahead < c.ahead := by
    intro c' hreach
    have hle := hreach.ahead_le
    have heq : c.ahead = 1 + c.advance.ahead := hfirst.ahead_eq
    omega
  rcases statement_cases c h with ⟨hword, hread⟩ | ⟨hword, hread⟩ | ⟨hcreate, hfunction, hstops⟩
  · rw [hread, stop_create hword]
    by_cases hpage : c.advance.peek.isKeyword "page" = true
    · have hreach := c.advance.reaches_advance
      obtain ⟨us, hus, hlength⟩ := hbehind hreach
      obtain ⟨n, hends, hstops⟩ := hinner _ (hless hreach) false
      rw [if_pos hpage]
      exact ⟨1 + n, by omega, .page hword hpage hends, hstops.behind hus hlength⟩
    · have hfunction : c.peek.isKeyword "function" = false := by
        simp_all [Token.isKeyword]
      rw [if_neg hpage]
      exact ⟨1, Nat.one_pos, .single (by simp [hpage]) hfunction fun c' _ => ends_words c',
        (stops_of_reaches (.refl _)).behind hfirst (Nat.le_refl 1)⟩
  · have hreach := c.advance.reaches_functionName
    obtain ⟨us, hus, hlength⟩ := hbehind hreach
    obtain ⟨n, hends, hstops⟩ := hinner _ (hless hreach) true
    rw [hread, stop_function hword]
    exact ⟨1 + n, by omega, .function hword hends, hstops.behind hus hlength⟩
  · exact ⟨1, Nat.one_pos, .single (by simp [hcreate]) hfunction fun c' _ => ends_words c',
      hstops.behind hfirst (Nat.le_refl 1)⟩

theorem loopEnds (c : Cursor) : LoopEnds c := by
  -- Each statement leaves fewer tokens before the end of the input, for the loops in it as well as
  -- for the rounds behind it.
  induction hn : c.ahead using Nat.strongRecOn generalizing c with
  | ind k ih =>
      subst hn
      intro inFunction
      cases hgo : goesOn inFunction c with
      | false =>
          refine ⟨0, .last hgo, ?_⟩
          rw [stop_statements_of_not_goesOn hgo]
          exact stops_of_reaches (.refl c)
      | true =>
          have hmore : c.atEnd = false := (Bool.not_eq_true' _).mp (Bool.and_eq_true_iff.1 hgo).1
          obtain ⟨m, hpos, hends, hstops⟩ :=
            ends_statement hmore fun c' hless => ih _ hless c' rfl
          rw [stop_statements_of_goesOn hgo hmore]
          cases hread : statement c hmore with
          | error e =>
              rw [hread] at hstops
              exact ⟨m, .failed hgo hread hends, hstops⟩
          | ok r =>
              rw [hread] at hstops
              obtain ⟨us, hus, hlength⟩ := hstops
              have hahead : c.ahead = us.length + r.2.1.ahead := hus.ahead_eq
              have hless : r.2.1.ahead < c.ahead := by omega
              obtain ⟨n, hlater, hstop⟩ := ih _ hless r.2.1 rfl inFunction
              exact ⟨m + n, .next hgo hread hends hlater, hstop.behind hus hlength⟩

theorem stops_statement {c : Cursor} (h : c.atEnd = false) :
    ∃ n, 0 < n ∧ Stops c n (stop (statement c h)) := by
  obtain ⟨n, hpos, -, hstops⟩ := ends_statement h fun c' _ => loopEnds c'
  exact ⟨n, hpos, hstops⟩

/-- The operations that move the cursor, each with the place to which it moves it. -/
inductive Moves : Cursor → Cursor → Prop
  | advance (c : Cursor) : Moves c c.advance
  | string (c : Cursor) : Moves c c.string.2
  | words (c : Cursor) : Moves c c.words.2
  | attributes (c : Cursor) : Moves c c.attributes.2
  | type (c : Cursor) : Moves c c.type.2
  | skipFrom (c : Cursor) : Moves c c.skipFrom
  | path (c : Cursor) : Moves c c.path.2
  | functionName (c : Cursor) : Moves c (functionName c).2
  | addition (start word : Token) (c : Cursor) : Moves c (addition start word c).2
  | importation (start : Token) (c : Cursor) : Moves c (importation start c).2
  | scriptBlock (kind : ScriptKind) (start : Token) (c : Cursor) :
      Moves c (scriptBlock kind start c).2
  | title (start : Token) (c : Cursor) : Moves c (title start c).2
  | add {c : Cursor} {h : c.atEnd = false} {r : Option Node × c.Beyond}
      (hr : add c h = .ok r) : Moves c r.2.1
  | importing {c : Cursor} {h : c.atEnd = false} {r : Option Node × c.Beyond}
      (hr : importing c h = .ok r) : Moves c r.2.1
  | create {c : Cursor} {h : c.atEnd = false} {r : Option Node × c.Beyond}
      (hr : create c h = .ok r) : Moves c r.2.1
  | function {c : Cursor} {h : c.atEnd = false} {r : Option Node × c.Beyond}
      (hr : function c h = .ok r) : Moves c r.2.1
  | statement {c : Cursor} {h : c.atEnd = false} {r : Option Node × c.Beyond}
      (hr : statement c h = .ok r) : Moves c r.2.1
  | statements {inFunction : Bool} {c : Cursor} {r : List Node × c.Onward}
      (hr : statements inFunction c = .ok r) : Moves c r.2.1

theorem isKeyword_of_bind {α : Type} {c : Cursor} {word : String}
    {f : Token → Except ParseError α} {r : α}
    (h : c.expect .keyword (some word) >>= f = .ok r) : c.peek.isKeyword word = true := by
  cases hexpect : c.expect .keyword (some word) with
  | error e =>
      rw [hexpect] at h
      cases h
  | ok t => exact isKeyword_of_expect hexpect

section

variable {c : Cursor} {h : c.atEnd = false} {r : Option Node × c.Beyond}

theorem reaches_of_statement (hr : statement c h = .ok r) : c.Reaches r.2.1 := by
  obtain ⟨n, -, hstops⟩ := stops_statement h
  rw [hr] at hstops
  exact Stops.reaches hstops

theorem reaches_of_stops {n : Nat} {result : Except ParseError (Option Node × c.Beyond)}
    (hstops : Stops c.advance n (stop result)) (hr : result = .ok r) : c.Reaches r.2.1 := by
  rw [hr] at hstops
  exact c.reaches_advance.trans (Stops.reaches hstops)

theorem statement_eq_create (hword : c.peek.isKeyword "create" = true) :
    statement c h = create c h := by
  rcases statement_cases c h with ⟨-, hread⟩ | ⟨hfunction, -⟩ | ⟨hcreate, -, -⟩
  · exact hread
  · simp_all [Token.isKeyword]
  · simp_all

theorem statement_eq_function (hword : c.peek.isKeyword "function" = true) :
    statement c h = function c h := by
  rcases statement_cases c h with ⟨hcreate, -⟩ | ⟨-, hread⟩ | ⟨-, hfunction, -⟩
  · simp_all [Token.isKeyword]
  · exact hread
  · simp_all

end

theorem Moves.reaches {c c' : Cursor} (h : Moves c c') : c.Reaches c' := by
  cases h with
  | advance => exact c.reaches_advance
  | string => exact c.reaches_string
  | words => exact c.reaches_words
  | attributes => exact c.reaches_attributes
  | type => exact c.reaches_type
  | skipFrom => exact c.reaches_skipFrom
  | path => exact c.reaches_path
  | functionName => exact c.reaches_functionName
  | addition start word => exact reaches_addition start word c
  | importation start => exact reaches_importation start c
  | scriptBlock => exact c.reaches_attributes
  | title => exact c.reaches_string
  | add hr => exact reaches_of_stops (stops_add (isKeyword_of_bind hr)) hr
  | importing hr => exact reaches_of_stops (stops_importing (isKeyword_of_bind hr)) hr
  | @create _ h _ hr =>
      have hword : c.peek.isKeyword "create" = true := by
        rw [Parser.create] at hr
        exact isKeyword_of_bind hr
      exact reaches_of_statement ((statement_eq_create hword).trans hr)
  | @function _ h _ hr =>
      have hword : c.peek.isKeyword "function" = true := by
        rw [Parser.function] at hr
        exact isKeyword_of_bind hr
      exact reaches_of_statement ((statement_eq_function hword).trans hr)
  | statement hr => exact reaches_of_statement hr
  | @statements inFunction _ _ hr =>
      obtain ⟨n, -, hstops⟩ := loopEnds c inFunction
      rw [hr] at hstops
      exact Stops.reaches hstops

theorem reaches_of_moves {c c' : Cursor} (h : Relation.ReflTransGen Moves c c') :
    c.Reaches c' := by
  induction h with
  | refl => exact .refl c
  | tail _ hmove ih => exact ih.trans hmove.reaches

end Parser

namespace Cursor

theorem ahead_start (ts : List Token) :
    (start ts).ahead = (ts.takeWhile (!·.isEnd)).length := by
  obtain ⟨post, hclosed⟩ := closed_eq ts
  have hbefore : ∀ t ∈ ts.takeWhile (!·.isEnd), (!t.isEnd) = true :=
    List.all_eq_true.1 List.all_takeWhile
  have hend : (!(endToken ts).isEnd) = false := by rw [isEnd_endToken]; rfl
  change ((closed ts).takeWhile (!·.isEnd)).length = _
  rw [hclosed, List.takeWhile_append_of_pos hbefore, List.takeWhile_cons_of_neg (by simp [hend]),
    List.append_nil]

end Cursor

namespace Parser

open Cursor

/-- In every list of tokens the parser reads no further than the first end of the input: no operation
moves the cursor past it. A statement that is read passes at least the token at which it is called, and one
that fails does so at a token that is not behind the end. So the run comes to its end, with no more
statements called for than there are tokens before the end of the input; and what stands behind that
end changes neither the document nor the error. -/
theorem reads_to_first_end (ts : List Token) :
    (∀ c, Relation.ReflTransGen Moves (start ts) c → (start ts).Reaches c) ∧
    (∀ c (h : c.atEnd = false) r, statement c h = .ok r → ∃ t used, c.Passes (t :: used) r.2.1) ∧
    (∀ c (h : c.atEnd = false) e, statement c h = .error e →
      ∃ c' mismatch, c.Reaches c' ∧ e = .atToken c'.peek mismatch) ∧
    (∃ n, Ends (.statements false (start ts)) n ∧ n ≤ (ts.takeWhile (!·.isEnd)).length) ∧
    ∀ pre eof post, ts = pre ++ eof :: post → (∀ t ∈ pre, t.isEnd = false) → eof.isEnd = true →
      Document.ofTokens ts = Document.ofTokens (pre ++ [eof]) := by
  refine ⟨fun c h => reaches_of_moves h, fun c h r hr => ?_, fun c h e he => ?_, ?_, ?_⟩
  · obtain ⟨n, hpos, hstops⟩ := stops_statement h
    rw [hr] at hstops
    obtain ⟨used, hused, hlength⟩ := hstops
    obtain ⟨t, more, rfl⟩ := List.exists_cons_of_length_pos (Nat.lt_of_lt_of_le hpos hlength)
    exact ⟨t, more, hused⟩
  · obtain ⟨n, -, hstops⟩ := stops_statement h
    rw [he] at hstops
    exact hstops.1
  · obtain ⟨n, hends, hstops⟩ := loopEnds (start ts) false
    refine ⟨n, hends, ?_⟩
    rw [← ahead_start]
    exact hstops.le_ahead
  · rintro pre eof post rfl hpre heof
    rw [Document.ofTokens_eq, Document.ofTokens_eq, ofTokens_append hpre heof,
      ofTokens_append hpre heof]

/-- A `create` that starts no page, an `add` with no word behind it, and behind the end of the input
a word. -/
theorem reads_to_first_end_add :
    let create : Token := ⟨.keyword, "create", 1, 1, ⟨0, 6⟩⟩
    let add : Token := ⟨.keyword, "add", 1, 8, ⟨7, 10⟩⟩
    let eof : Token := ⟨.endOfInput, "", 3, 1, .empty 4⟩
    let word : Token := ⟨.identifier, "x", 1, 1, ⟨0, 1⟩⟩
    let c := start [create, add, eof, word]
    (∃ h r, statement c h = .ok r ∧ r.2.1 = c.advance) ∧
      (∃ t used, c.Passes (t :: used) c.advance) ∧
      Relation.ReflTransGen Moves c c.advance ∧ c.Reaches c.advance ∧
      (∃ h e, statement c.advance h = .error e ∧
        ∃ c' mismatch, c.advance.Reaches c' ∧ e = .atToken c'.peek mismatch) ∧
      Document.ofTokens [create, add, eof, word] = Document.ofTokens [create, add, eof] := by
  intro create add eof word c
  have hfirst : c.atEnd = false := rfl
  have hsecond : c.advance.atEnd = false := rfl
  have hok : statement c hfirst = .ok (none, ⟨c.advance, c.length_advance_lt hfirst⟩) := by
    have hcreate : c.peek.isKeyword "create" = true := rfl
    rw [statement_eq_create hcreate, Parser.create]
    rfl
  have herror : statement c.advance hsecond = .error (.atToken eof (.kind .word .endOfInput)) := by
    rw [statement]
    rfl
  have hmoves : Relation.ReflTransGen Moves c c.advance := .single (.advance c)
  obtain ⟨hreaches, hpasses, hfails, -, hend⟩ := reads_to_first_end [create, add, eof, word]
  refine ⟨⟨hfirst, _, hok, rfl⟩, hpasses c hfirst _ hok, hmoves, hreaches _ hmoves,
    ⟨hsecond, _, herror, hfails _ hsecond _ herror⟩, hend [create, add] eof [word] rfl ?_ rfl⟩
  exact List.forall_mem_cons.2 ⟨rfl, List.forall_mem_singleton.2 rfl⟩

end Parser

end EnglishPages
