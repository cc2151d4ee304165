import EnglishPages.Proofs.FlatScan

/-!
The parser and the flat scan read the same statements. Each reader of the parser takes the tokens
that the scan gives to its phrase, so one statement is read alike; by induction on the tokens the
trees of the parser are the nested headers of the scan.
-/

namespace EnglishPages

/-! Where the parser stands when the scan has some tokens left: before these tokens, with the end
of the input and whatever follows it behind them. -/

namespace Cursor

open Scan

variable {eof : Token} (heof : eof.isEnd = true) (post : List Token)

def place (last : Span) (ts : List Token) : Cursor :=
  ⟨last, ts ++ eof :: post, eof, by simp, heof⟩

variable {heof post} {last : Span} {t : Token} {ts : List Token}

@[simp] theorem peek_place_nil : (place heof post last []).peek = eof := rfl

@[simp] theorem peek_place_cons : (place heof post last (t :: ts)).peek = t := rfl

theorem atEnd_place_nil : (place heof post last []).atEnd = true := heof

theorem advance_place_cons (ht : t.isEnd = false) :
    (place heof post last (t :: ts)).advance = place heof post t.span ts := by
  have hmore : (place heof post last (t :: ts)).atEnd = false := ht
  simp only [advance, hmore, dite_true]
  rfl

def placeAfter (heof : eof.isEnd = true) (post : List Token) (last : Span) (ts used : List Token) :
    Cursor :=
  place heof post (lastSpan last used) (ts.drop used.length)

theorem placeAfter_nil : placeAfter heof post last ts [] = place heof post last ts := rfl

theorem placeAfter_cons (us : List Token) :
    placeAfter heof post last (t :: ts) (t :: us) = placeAfter heof post t.span ts us := by
  simp [placeAfter, lastSpan_cons]

theorem placeAfter_append (us vs : List Token) :
    placeAfter heof post last ts (us ++ vs) =
      placeAfter heof post (lastSpan last us) (ts.drop us.length) vs := by
  simp [placeAfter, lastSpan_append, List.drop_drop]

/-- The parser looks at the token at the cursor where the scan looks at the one in front; the end
of the input stands for there being none. -/
theorem leading_cases (heof : eof.isEnd = true) (post : List Token) (p : Token → Bool)
    (hp : ∀ t, p t = true → t.isEnd = false) (last : Span) (ts : List Token) :
    (p (place heof post last ts).peek = false ∧ leading p ts = []) ∨
      ∃ t rest, ts = t :: rest ∧ p t = true ∧ leading p ts = [t] := by
  cases ts with
  | nil =>
      have hno : p eof = false :=
        Bool.eq_false_iff.2 fun hyes => by simpa [heof] using hp eof hyes
      exact .inl ⟨hno, rfl⟩
  | cons t ts =>
      by_cases ht : p t = true
      · exact .inr ⟨t, ts, rfl, ht, by simp [leading, ht]⟩
      · exact .inl ⟨by simpa [peek_place_cons] using ht, by simp [leading, ht]⟩

theorem isEnd_of_isWord (h : t.isWord = true) : t.isEnd = false := by
  cases hk : t.kind <;> simp_all [Token.isWord, Token.isEnd]

theorem isEnd_of_hasKind {kind : TokenKind} (hkind : kind ≠ .endOfInput)
    (h : hasKind kind t = true) : t.isEnd = false := by
  simp_all [hasKind, Token.isEnd]

theorem isEnd_of_isKeyword {word : String} (h : t.isKeyword word = true) : t.isEnd = false := by
  simp_all [Token.isKeyword, Token.isEnd]

theorem isEnd_of_isFrom (h : isFrom t = true) : t.isEnd = false := by
  rcases Bool.or_eq_true_iff.1 h with h | h
  · exact isEnd_of_isKeyword h
  · exact isEnd_of_isKeyword h

theorem value_place {kind : TokenKind} (hkind : kind ≠ .endOfInput) (default : String) :
    (if (place heof post last ts).peek.kind = kind then
        ((place heof post last ts).peek.value, (place heof post last ts).advance)
      else (default, place heof post last ts)) =
      let used := leading (hasKind kind) ts
      ((text? used).getD default, placeAfter heof post last ts used) := by
  have hp : ∀ t, hasKind kind t = true → t.isEnd = false := fun t => isEnd_of_hasKind hkind
  rcases leading_cases heof post (hasKind kind) hp last ts with
    ⟨hno, hlead⟩ | ⟨t, rest, rfl, ht, hlead⟩
  · rw [hlead, if_neg (by simpa [hasKind] using hno)]
    rfl
  · rw [hlead, if_pos (by simpa [hasKind] using ht), advance_place_cons (hp t ht)]
    rfl

theorem string_place :
    let used := leading (hasKind .string) ts
    (place heof post last ts).string = ((text? used).getD "", placeAfter heof post last ts used) :=
  value_place (by decide) ""

theorem functionName_place :
    let used := leading (hasKind .identifier) ts
    Parser.functionName (place heof post last ts) =
      ((text? used).getD Parser.anonymous, placeAfter heof post last ts used) :=
  value_place (by decide) Parser.anonymous

theorem words_place : (place heof post last ts).words =
    (((ts.takeWhile isAttribute).map Token.value).filter (· ≠ "and"),
      placeAfter heof post last ts (ts.takeWhile isAttribute)) := by
  induction ts generalizing last with
  | nil =>
      have hno : ¬ (eof.isWord = true ∧ eof.value ∉ statementWords) := fun h => by
        simpa [heof] using isEnd_of_isWord h.1
      rw [words, peek_place_nil, dif_neg hno]
      rfl
  | cons t ts ih =>
      rw [words, peek_place_cons]
      by_cases ht : t.isWord = true ∧ t.value ∉ statementWords
      · have hattribute : isAttribute t = true := by simpa [isAttribute] using ht
        rw [dif_pos ht, advance_place_cons (isEnd_of_isWord ht.1), ih,
          List.takeWhile_cons_of_pos hattribute, placeAfter_cons]
        by_cases hand : t.value = "and" <;> simp [hand]
      · have hattribute : ¬ isAttribute t = true := by simpa [isAttribute] using ht
        rw [dif_neg ht, List.takeWhile_cons_of_neg hattribute]
        rfl

theorem attributes_place : (place heof post last ts).attributes =
    (attributeWords (withPhrase ts), placeAfter heof post last ts (withPhrase ts)) := by
  cases ts with
  | nil =>
      have hno : ¬ eof.isKeyword "with" = true := fun h => by
        simpa [heof] using isEnd_of_isKeyword h
      rw [attributes, peek_place_nil, if_neg hno]
      rfl
  | cons t ts =>
      rw [attributes, peek_place_cons]
      by_cases ht : t.isKeyword "with" = true
      · rw [if_pos ht, advance_place_cons (isEnd_of_isKeyword ht), words_place, withPhrase,
          if_pos ht, placeAfter_cons]
        rfl
      · rw [if_neg ht, withPhrase, if_neg ht]
        rfl

theorem type_place :
    let used := leading (fun t => t.isWord && !isFrom t) ts
    (place heof post last ts).type = (text? used, placeAfter heof post last ts used) := by
  have hp : ∀ t : Token, (t.isWord && !isFrom t) = true → t.isEnd = false := fun t ht =>
    isEnd_of_isWord (Bool.and_eq_true_iff.1 ht).1
  rcases leading_cases heof post _ hp last ts with ⟨hno, hlead⟩ | ⟨t, rest, rfl, ht, hlead⟩
  · rw [hlead, Cursor.type, hno]
    rfl
  · rw [hlead, Cursor.type, peek_place_cons, ht, advance_place_cons (hp t ht)]
    rfl

theorem skipFrom_place : (place heof post last ts).skipFrom =
    placeAfter heof post last ts (leading isFrom ts) := by
  rcases leading_cases heof post isFrom (fun _ => isEnd_of_isFrom) last ts with
    ⟨hno, hlead⟩ | ⟨t, rest, rfl, ht, hlead⟩
  · rw [hlead, skipFrom, hno]
    rfl
  · rw [hlead, skipFrom, peek_place_cons, ht, advance_place_cons (isEnd_of_isFrom ht)]
    rfl

theorem path_place : (place heof post last ts).path =
    (path? (pathPhrase ts), placeAfter heof post last ts (pathPhrase ts)) := by
  have hpath : ∀ t, hasKind .path t = true → t.isEnd = false := fun t =>
    isEnd_of_hasKind (by decide)
  have hext : ∀ t, isExtension t = true → t.isEnd = false := fun t ht =>
    isEnd_of_hasKind (by decide) (Bool.and_eq_true_iff.1 ht).1
  rcases leading_cases heof post (hasKind .path) hpath last ts with
    ⟨hno, hlead⟩ | ⟨p, rest, rfl, hp, hlead⟩
  · have hkind : (place heof post last ts).peek.kind ≠ .path := by simpa [hasKind] using hno
    rw [pathPhrase, hlead, path, if_neg hkind]
    rfl
  · have hkind : (place heof post last (p :: rest)).peek.kind = .path := by
      simpa [hasKind] using hp
    rw [pathPhrase, hlead, path, if_pos hkind, advance_place_cons (hpath p hp)]
    simp only [peek_place_cons, List.drop_succ_cons, List.drop_zero, List.singleton_append,
      placeAfter_cons]
    -- the extension is looked for where the bracket ends
    rcases leading_cases heof post isExtension hext p.span rest with
      ⟨hno, hlead'⟩ | ⟨e, rest', rfl, he, hlead'⟩
    · rw [hlead', if_neg (by simpa [isExtension, hasKind] using hno)]
      rfl
    · rw [hlead', if_pos (by simpa [isExtension, hasKind] using he), peek_place_cons,
        advance_place_cons (hext e he)]
      rfl

end Cursor

namespace Parser

open Scan Cursor

variable {eof : Token} {heof : eof.isEnd = true} {post : List Token} {last : Span} {t : Token}
  {ts : List Token}

def bare {α : Type} {p : Cursor → Prop} (r : α × { c : Cursor // p c }) : α × Cursor :=
  (r.1, r.2.1)

def complete (c : Cursor) : Option Header → Except ParseError (Option Node × Cursor)
  | none => .ok (none, c)
  | some (.leaf l) => .ok (some l.node, c)
  | some (.page span) => do
      let (children, c) ← (statements false c).map bare
      return (some (.page children span), c)
  | some (.function name span) => do
      let (children, c) ← (statements true c).map bare
      return (some (.function name children span), c)

theorem bare_create (c : Cursor) (h : c.atEnd = false) :
    (create c h).map bare = do
      let start ← c.expect .keyword (some "create")
      if c.advance.peek.isKeyword "page" then
        let (children, c') ← (statements false c.advance.advance).map bare
        return (some (.page children (start.span.join c.advance.advance.last)), c')
      else return (none, c.advance) := by
  rw [create]
  cases c.expect .keyword (some "create") with
  | error e => rfl
  | ok start =>
      change Except.map bare (ite _ _ _) = ite _ _ _
      split
      · cases statements false c.advance.advance <;> rfl
      · rfl

theorem bare_function (c : Cursor) (h : c.atEnd = false) :
    (function c h).map bare = do
      let start ← c.expect .keyword (some "function")
      let named := functionName c.advance
      let (children, c') ← (statements true named.2).map bare
      return (some (.function named.1 children (start.span.join named.2.last)), c') := by
  rw [function]
  cases c.expect .keyword (some "function") with
  | error e => rfl
  | ok start => cases h : statements true (functionName c.advance).2 <;> simp [h] <;> rfl

theorem bare_add (c : Cursor) (h : c.atEnd = false) :
    (add c h).map bare = do
      let start ← c.expect .keyword (some "add")
      let word ← c.advance.expectWord
      let r := addition start word c.advance.advance
      return (some r.1, r.2) := by
  rw [add]
  cases c.expect .keyword (some "add") with
  | error e => rfl
  | ok start => cases c.advance.expectWord <;> rfl

theorem bare_importing (c : Cursor) (h : c.atEnd = false) :
    (importing c h).map bare = do
      let start ← c.expect .keyword (some "import")
      let r := importation start c.advance
      return (some r.1, r.2) := by
  rw [importing]
  cases c.expect .keyword (some "import") <;> rfl

theorem addition_place (word : Token) :
    addition t word (place heof post word.span ts) =
      let content := leading (hasKind .string) ts
      let phrase := withPhrase (ts.drop content.length)
      let used := word :: content ++ phrase
      let c := placeAfter heof post t.span (word :: ts) used
      let text := (text? content).getD ""
      if word.value = "title" ∨ word.value = "tite" then (.title text (extent t used), c)
      else (.element ⟨.ofWord word.value, text, attributeWords phrase, extent t used⟩, c) := by
  have hattributes : ∀ us : List Token, (placeAfter heof post word.span ts us).attributes =
      (attributeWords (withPhrase (ts.drop us.length)), placeAfter heof post t.span (word :: ts)
        (word :: us ++ withPhrase (ts.drop us.length))) := by
    intro us
    rw [List.cons_append, placeAfter_cons, placeAfter_append]
    exact attributes_place
  simp only [addition, string_place, hattributes]
  rfl

theorem importation_place :
    importation t (place heof post t.span ts) =
      let phrase := importPhrase ts
      (.importing ⟨text? phrase.type, path? phrase.path, none, extent t phrase.tokens⟩,
        placeAfter heof post t.span ts phrase.tokens) := by
  have hskip : ∀ us : List Token, (placeAfter heof post t.span ts us).skipFrom =
      placeAfter heof post t.span ts (us ++ leading isFrom (ts.drop us.length)) := by
    intro us
    rw [placeAfter_append]
    exact skipFrom_place
  have hpath : ∀ us : List Token, (placeAfter heof post t.span ts us).path =
      (path? (pathPhrase (ts.drop us.length)),
        placeAfter heof post t.span ts (us ++ pathPhrase (ts.drop us.length))) := by
    intro us
    rw [placeAfter_append]
    exact path_place
  simp only [importation, type_place, hskip, hpath, importPhrase, ImportPhrase.tokens,
    List.length_append, List.drop_drop]
  rfl

section

variable (hkind : t.kind = .keyword) (h : (place heof post last (t :: ts)).atEnd = false)

include hkind

theorem advance_keyword :
    (place heof post last (t :: ts)).advance = place heof post t.span ts :=
  advance_place_cons (by simp [Token.isEnd, hkind])

theorem expect_place {word : String} (hvalue : t.value = word) :
    (place heof post last (t :: ts)).expect .keyword (some word) = .ok t := by
  simp [expect, hkind, hvalue]

theorem create_place (hvalue : t.value = "create") :
    (create (place heof post last (t :: ts)) h).map bare =
      let r := Scan.create t ts
      complete (placeAfter heof post t.span ts r.2) r.1 := by
  rw [bare_create, expect_place hkind hvalue, advance_keyword hkind]
  rcases leading_cases heof post (·.isKeyword "page") (fun _ => isEnd_of_isKeyword) t.span ts with
    ⟨hno, hlead⟩ | ⟨page, rest, rfl, hpage, hlead⟩
  · simp only [Scan.create, hlead, hno]
    rfl
  · rw [peek_place_cons, advance_place_cons (isEnd_of_isKeyword hpage)]
    simp only [Scan.create, hlead, hpage, placeAfter_cons, placeAfter_nil]
    rfl

theorem function_place (hvalue : t.value = "function") :
    (function (place heof post last (t :: ts)) h).map bare =
      let r := Scan.function t ts
      complete (placeAfter heof post t.span ts r.2) r.1 := by
  rw [bare_function, expect_place hkind hvalue, advance_keyword hkind, functionName_place]
  rfl

theorem importing_place (hvalue : t.value = "import") :
    (importing (place heof post last (t :: ts)) h).map bare =
      let r := Scan.importing t ts
      complete (placeAfter heof post t.span ts r.2) r.1 := by
  rw [bare_importing, expect_place hkind hvalue, advance_keyword hkind]
  change Except.ok (some (importation t _).1, (importation t _).2) = _
  rw [importation_place]
  rfl

theorem add_place (hvalue : t.value = "add") :
    (add (place heof post last (t :: ts)) h).map bare =
      Scan.add eof t ts >>= fun r => complete (placeAfter heof post t.span ts r.2) r.1 := by
  rw [bare_add, expect_place hkind hvalue, advance_keyword hkind]
  cases ts with
  | nil =>
      have hno : eof.isWord = false := Bool.eq_false_iff.2 fun hyes => by
        simpa [heof] using isEnd_of_isWord hyes
      have hexpect : (place heof post t.span []).expectWord =
          .error (.atToken eof (.kind .word eof.kind)) := by simp [expectWord, hno]
      rw [hexpect]
      rfl
  | cons word ts =>
      by_cases hword : word.isWord = true
      · have hexpect : (place heof post t.span (word :: ts)).expectWord = .ok word := by
          simp [expectWord, hword]
        rw [hexpect, advance_place_cons (isEnd_of_isWord hword)]
        change Except.ok (some (addition t word _).1, (addition t word _).2) = _
        rw [addition_place, Scan.add, if_pos hword]
        by_cases htitle : word.value = "title" ∨ word.value = "tite"
        · simp only [if_pos htitle]
          rfl
        · simp only [if_neg htitle]
          rfl
      · have hexpect : (place heof post t.span (word :: ts)).expectWord =
            .error (.atToken word (.kind .word word.kind)) := by simp [expectWord, hword]
        rw [hexpect, Scan.add, if_neg hword]
        rfl

theorem keyword_place :
    (statement (place heof post last (t :: ts)) h).map bare =
      header eof t ts >>= fun r => complete (placeAfter heof post t.span ts r.2) r.1 := by
  rw [statement, peek_place_cons, if_pos hkind]
  -- `header` stays folded here, so that only the parser's own choice of a reader is split
  split
  case h_1 hvalue =>
    have hheader : header eof t ts = .ok (Scan.create t ts) := by simp [header, hkind, hvalue]
    rw [hheader]
    exact create_place hkind h hvalue
  case h_2 hvalue =>
    have hheader : header eof t ts = Scan.add eof t ts := by simp [header, hkind, hvalue]
    rw [hheader]
    exact add_place hkind h hvalue
  case h_3 hvalue =>
    have hheader : header eof t ts = .ok (Scan.function t ts) := by simp [header, hkind, hvalue]
    rw [hheader]
    exact function_place hkind h hvalue
  case h_4 hvalue =>
    have hheader : header eof t ts = .ok (Scan.importing t ts) := by simp [header, hkind, hvalue]
    rw [hheader]
    exact importing_place hkind h hvalue
  case h_5 hvalue | h_6 hvalue =>
    have hheader : header eof t ts = .ok (Scan.title t ts) := by simp [header, hkind, hvalue]
    rw [hheader]
    simp only [Except.map, bare, beyond, title, advance_keyword hkind, string_place]
    rfl
  case h_7 hcreate hadd hfunction himport htitle htite =>
    have hheader : header eof t ts =
        .ok ((ScriptKind.ofWord? t.value).elim (none, []) fun kind => script kind t ts) := by
      rw [header, if_neg (not_not_intro hkind), if_neg hcreate, if_neg hadd, if_neg hfunction,
        if_neg himport, if_neg (not_or.2 ⟨htitle, htite⟩)]
    split
    · next kind hscript =>
        rw [hheader, hscript]
        simp only [Except.map, bare, beyond, scriptBlock, advance_keyword hkind, attributes_place]
        rfl
    · next hscript =>
        rw [hheader, hscript]
        simp only [Except.map, bare, advance_keyword hkind]
        rfl

end

theorem statement_place (ht : t.isEnd = false)
    (h : (place heof post last (t :: ts)).atEnd = false) :
    (statement (place heof post last (t :: ts)) h).map bare =
      header eof t ts >>= fun r => complete (placeAfter heof post t.span ts r.2) r.1 := by
  by_cases hkind : t.kind = .keyword
  · exact keyword_place hkind h
  · rw [statement, peek_place_cons, if_neg hkind, header, if_pos hkind]
    simp only [Except.map, bare, advance_place_cons ht]
    rfl

theorem statements_place_nil (inFunction : Bool) :
    (statements inFunction (place heof post last [])).map bare =
      .ok ([], place heof post last []) := by
  rw [statements, dif_neg (by rw [atEnd_place_nil]; decide)]
  rfl

theorem statements_place_function (hfunction : t.isKeyword "function" = true) :
    (statements true (place heof post last (t :: ts))).map bare =
      .ok ([], place heof post last (t :: ts)) := by
  have hmore : (place heof post last (t :: ts)).atEnd = false := isEnd_of_isKeyword hfunction
  rw [statements, dif_pos hmore, if_pos (by simpa using hfunction)]
  rfl

theorem statements_place_cons {inFunction : Bool} (ht : t.isEnd = false)
    (hgo : (inFunction && t.isKeyword "function") = false) :
    (statements inFunction (place heof post last (t :: ts))).map bare = do
      let r ← header eof t ts
      let (node, c) ← complete (placeAfter heof post t.span ts r.2) r.1
      let (nodes, c) ← (statements inFunction c).map bare
      return (node.toList ++ nodes, c) := by
  have hmore : (place heof post last (t :: ts)).atEnd = false := ht
  rw [← bind_assoc, ← statement_place ht hmore, statements, dif_pos hmore,
    if_neg (by simpa using hgo)]
  cases statement (place heof post last (t :: ts)) hmore with
  | error e => rfl
  | ok r =>
      obtain ⟨node, c⟩ := r
      change Except.map bare (statements inFunction c.1 >>= _) =
        (statements inFunction c.1).map bare >>= _
      cases statements inFunction c.1 <;> rfl

def outline (eof : Token) (ts : List Token) : Except ParseError Outline :=
  (headers eof ts).map Outline.nest

theorem outline_nil : outline eof [] = .ok ⟨[], []⟩ := rfl

theorem outline_cons : outline eof (t :: ts) = header eof t ts >>= fun r =>
    (outline eof (ts.drop r.2.length)).map fun o => r.1.elim o o.prepend := by
  rw [outline, headers_cons]
  cases header eof t ts with
  | error e => rfl
  | ok r =>
      obtain ⟨h, used⟩ := r
      change Except.map _ ((headers eof (ts.drop used.length)).map _) =
        Except.map _ ((headers eof (ts.drop used.length)).map _)
      cases headers eof (ts.drop used.length) with
      | error e => rfl
      | ok hs => cases h <;> rfl

theorem outline_function (h : t.isKeyword "function" = true) {o : Outline}
    (ho : outline eof (t :: ts) = .ok o) : o.body = [] := by
  rw [outline_cons, header_of_function h] at ho
  change (outline eof (ts.drop (leading (hasKind .identifier) ts).length)).map _ = _ at ho
  cases hrest : outline eof (ts.drop (leading (hasKind .identifier) ts).length) with
  | error e =>
      rw [hrest] at ho
      cases ho
  | ok o' =>
      rw [hrest] at ho
      cases ho
      rfl

def ReadsAll (heof : eof.isEnd = true) (post ts : List Token) : Prop :=
  ∀ last, ∃ last', (statements false (place heof post last ts)).map bare =
    (outline eof ts).map fun o => (o.nodes, place heof post last' [])

/-- A reading of the tokens `ts` inside a function, beside their outline: it fails as the outline
does, or it gives what comes before the functions and stops where one of them starts. -/
def IsBody (heof : eof.isEnd = true) (post ts : List Token)
    (reading : Except ParseError (List Node × Cursor)) (o : Except ParseError Outline) : Prop :=
  (∃ e, reading = .error e ∧ o = .error e) ∨
    ∃ nodes last rest, reading = .ok (nodes, place heof post last rest) ∧ rest <:+ ts ∧
      (∀ o, outline eof rest = .ok o → o.body = []) ∧
      o = (outline eof rest).map fun o => ⟨nodes, o.functions⟩

def ReadsBody (heof : eof.isEnd = true) (post ts : List Token) : Prop :=
  ∀ last, IsBody heof post ts ((statements true (place heof post last ts)).map bare)
    (outline eof ts)

theorem IsBody.append_left {us : List Token} {reading : Except ParseError (List Node × Cursor)}
    {o : Except ParseError Outline} (h : IsBody heof post us reading o) (hsuffix : us <:+ ts)
    (nodes : List Node) :
    IsBody heof post ts (reading >>= fun r => .ok (nodes ++ r.1, r.2))
      (o.map fun o => ⟨nodes ++ o.body, o.functions⟩) := by
  rcases h with ⟨e, rfl, rfl⟩ | ⟨inner, last, rest, rfl, hrest, hempty, rfl⟩
  · exact .inl ⟨e, rfl, rfl⟩
  · refine .inr ⟨nodes ++ inner, last, rest, rfl, hrest.trans hsuffix, hempty, ?_⟩
    cases outline eof rest <;> rfl

theorem isBody_nil (nodes : List Node) :
    IsBody heof post ts (.ok (nodes, place heof post last [])) (.ok ⟨nodes, []⟩) := by
  refine .inr ⟨nodes, last, [], rfl, List.nil_suffix, ?_, ?_⟩
  · intro o ho
    rw [outline_nil] at ho
    cases ho
    rfl
  · rw [outline_nil]
    rfl

theorem readsAll_nil : ReadsAll heof post [] := by
  intro last
  refine ⟨last, ?_⟩
  rw [statements_place_nil, outline_nil]
  rfl

theorem readsBody_nil : ReadsBody heof post [] := by
  intro last
  rw [statements_place_nil, outline_nil]
  exact isBody_nil []

theorem readsAll_cons (ht : t.isEnd = false)
    (ih : ∀ us, us <:+ ts → ReadsAll heof post us ∧ ReadsBody heof post us) :
    ReadsAll heof post (t :: ts) := by
  intro last
  rw [statements_place_cons ht (by simp), outline_cons]
  cases header eof t ts with
  | error e => exact ⟨last, rfl⟩
  | ok r =>
      obtain ⟨h, used⟩ := r
      have hsuffix : ts.drop used.length <:+ ts := List.drop_suffix _ _
      obtain ⟨hall, hbody⟩ := ih _ hsuffix
      obtain ⟨last', hall⟩ := hall (lastSpan t.span used)
      change ∃ last', (complete (place heof post _ (ts.drop used.length)) h >>= _) =
        Except.map _ ((outline eof (ts.drop used.length)).map _)
      match h with
      | none =>
          refine ⟨last', ?_⟩
          change (statements false _).map bare >>= _ = _
          rw [hall]
          cases outline eof (ts.drop used.length) <;> rfl
      | some (.leaf l) =>
          refine ⟨last', ?_⟩
          change (statements false _).map bare >>= _ = _
          rw [hall]
          cases outline eof (ts.drop used.length) <;> rfl
      | some (.page span) =>
          refine ⟨last', ?_⟩
          rw [complete, hall]
          cases outline eof (ts.drop used.length) with
          | error e => rfl
          | ok o =>
              change (statements false (place heof post last' [])).map bare >>= _ = _
              rw [statements_place_nil]
              rfl
      | some (.function name span) =>
          rw [complete]
          rcases hbody (lastSpan t.span used) with
            ⟨e, herror, houtline⟩ | ⟨nodes, last₁, rest, hnodes, hrest, hempty, houtline⟩
          · rw [herror, houtline]
            exact ⟨last, rfl⟩
          · -- the functions from `rest` on are the next statements
            obtain ⟨last₂, hafter⟩ := (ih rest (hrest.trans hsuffix)).1 last₁
            refine ⟨last₂, ?_⟩
            rw [hnodes, houtline]
            change (statements false (place heof post last₁ rest)).map bare >>= _ = _
            rw [hafter]
            cases hfunctions : outline eof rest with
            | error e => rfl
            | ok o =>
                have hnodes : o.nodes = o.functions := by
                  rw [Outline.nodes, hempty o hfunctions, List.nil_append]
                change Except.ok (.function name nodes span :: o.nodes, _) = _
                rw [hnodes]
                rfl

theorem readsBody_cons (ht : t.isEnd = false)
    (ih : ∀ us, us <:+ ts → ReadsAll heof post us ∧ ReadsBody heof post us) :
    ReadsBody heof post (t :: ts) := by
  intro last
  by_cases hfunction : t.isKeyword "function" = true
  · refine .inr ⟨[], last, t :: ts, statements_place_function hfunction, List.suffix_refl _,
      fun o ho => outline_function hfunction ho, ?_⟩
    cases houtline : outline eof (t :: ts) with
    | error e => rfl
    | ok o =>
        obtain ⟨body, functions⟩ := o
        obtain rfl : body = [] := outline_function hfunction houtline
        rfl
  rw [statements_place_cons ht (by simpa using hfunction), outline_cons]
  cases hheader : header eof t ts with
  | error e => exact .inl ⟨e, rfl, rfl⟩
  | ok r =>
      obtain ⟨h, used⟩ := r
      have hsuffix : ts.drop used.length <:+ ts := List.drop_suffix _ _
      have hsuffix' : ts.drop used.length <:+ t :: ts := hsuffix.trans (List.suffix_cons t ts)
      obtain ⟨hall, hbody⟩ := ih _ hsuffix
      match h with
      | none => exact (hbody (lastSpan t.span used)).append_left hsuffix' []
      | some (.leaf l) => exact (hbody (lastSpan t.span used)).append_left hsuffix' [l.node]
      | some (.page span) =>
          obtain ⟨last', hall⟩ := hall (lastSpan t.span used)
          change IsBody heof post _ (complete (place heof post _ (ts.drop used.length)) _ >>= _)
            ((outline eof (ts.drop used.length)).map _)
          rw [complete, hall]
          cases outline eof (ts.drop used.length) with
          | error e => exact .inl ⟨e, rfl, rfl⟩
          | ok o =>
              -- the page has taken everything
              change IsBody heof post _
                ((statements true (place heof post last' [])).map bare >>= _) _
              rw [statements_place_nil]
              exact isBody_nil [.page o.nodes span]
      | some (.function name span) => exact absurd (isKeyword_of_header hheader) hfunction

theorem reads (heof : eof.isEnd = true) (post : List Token) (hts : ∀ t ∈ ts, t.isEnd = false)
    {us : List Token} (hus : us <:+ ts) :
    ReadsAll heof post us ∧ ReadsBody heof post us := by
  induction ts generalizing us with
  | nil =>
      obtain rfl := List.eq_nil_of_suffix_nil hus
      exact ⟨readsAll_nil, readsBody_nil⟩
  | cons t ts ih =>
      have ht := hts t List.mem_cons_self
      have hrest : ∀ u ∈ ts, u.isEnd = false := fun u hu => hts u (List.mem_cons_of_mem t hu)
      have ih' : ∀ us, us <:+ ts → ReadsAll heof post us ∧ ReadsBody heof post us :=
        fun us hus => ih hrest hus
      rcases List.suffix_cons_iff.1 hus with rfl | hus
      · exact ⟨readsAll_cons ht ih', readsBody_cons ht ih'⟩
      · exact ih' us hus

end Parser

namespace Cursor

open Scan

theorem isEnd_endToken (ts : List Token) : (endToken ts).isEnd = true := by
  unfold endToken
  cases hfind : ts.find? Token.isEnd with
  | some t => exact List.find?_some hfind
  | none => cases ts.getLast? <;> rfl

theorem closed_eq (ts : List Token) :
    ∃ post, closed ts = ts.takeWhile (!·.isEnd) ++ endToken ts :: post := by
  cases hfind : ts.find? Token.isEnd with
  | some e =>
      obtain ⟨he, before, after, rfl, hbefore⟩ := List.find?_eq_some_iff_append.1 hfind
      have htake : (before ++ e :: after).takeWhile (!·.isEnd) = before := by
        rw [List.takeWhile_append_of_pos hbefore, List.takeWhile_cons_of_neg (by simp [he]),
          List.append_nil]
      have hend : endToken (before ++ e :: after) = e := by
        simp only [endToken, hfind]
      rw [htake, hend, closed]
      split
      · next hlast => simp at hlast
      · split
        · exact ⟨after, rfl⟩
        · exact ⟨after ++ [_], by rw [List.append_assoc]; rfl⟩
  | none =>
      have hnone : ∀ t ∈ ts, t.isEnd = false := by simpa using hfind
      have htake : ts.takeWhile (!·.isEnd) = ts := by
        have happend : (ts ++ []).takeWhile (!·.isEnd) = ts ++ [] :=
          List.takeWhile_append_of_pos fun t ht => by simp [hnone t ht]
        simpa using happend
      rw [htake, closed, endToken, hfind]
      cases hlast : ts.getLast? with
      | none =>
          obtain rfl := List.getLast?_eq_none_iff.1 hlast
          exact ⟨[], rfl⟩
      | some t =>
          have ht : ¬ t.isEnd = true := by simp [hnone t (List.mem_of_getLast? hlast)]
          refine ⟨[], ?_⟩
          simp only [ht]
          rfl

end Cursor

namespace Document

open Scan Cursor

theorem ofTokens_eq (ts : List Token) :
    ofTokens ts = (Scan.ofTokens ts).map fun hs => ⟨(Outline.nest hs).nodes⟩ := by
  have heof := isEnd_endToken ts
  obtain ⟨post, hclosed⟩ := closed_eq ts
  have hstart : Cursor.start ts = place heof post (.empty 0) (ts.takeWhile (!·.isEnd)) := by
    simp only [Cursor.start, place, hclosed]
  have hts : ∀ t ∈ ts.takeWhile (!·.isEnd), t.isEnd = false := by
    intro t ht
    simpa using List.all_eq_true.1 List.all_takeWhile t ht
  obtain ⟨last, hall⟩ := (Parser.reads heof post hts (List.suffix_refl _)).1 (.empty 0)
  have hmap : ofTokens ts = ((Parser.statements false (Cursor.start ts)).map Parser.bare).map
      fun r => ⟨r.1⟩ := by
    rw [ofTokens]
    cases Parser.statements false (Cursor.start ts) <;> rfl
  rw [hmap, hstart, hall, Parser.outline, Scan.ofTokens]
  cases headers (endToken ts) (ts.takeWhile (!·.isEnd)) <;> rfl

/-- The parser fails as the flat scan fails, and otherwise its trees, walked in pre-order, give the
headers that the scan lists. -/
theorem headersOf_ofTokens (ts : List Token) :
    (ofTokens ts).map (fun d => Node.headersOf d.nodes) = Scan.ofTokens ts := by
  rw [ofTokens_eq]
  cases Scan.ofTokens ts with
  | error e => rfl
  | ok hs => exact congrArg Except.ok (Outline.headersOf_nest hs)

end Document

end EnglishPages
