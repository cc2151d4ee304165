import EnglishPages.Proofs.ParserScan
import EnglishPages.Proofs.Spelling
import EnglishPages.Proofs.TokenJoins
import EnglishPages.Proofs.UnplacedPages

/-!
Layout and case do not matter. The parser looks at the kinds and the values of tokens and only
carries their places along, so tokens that say the same give the same document or the same error in
other places, and the same page. And what a token says does not depend on the gaps between tokens,
nor for a word on its case: texts that differ in nothing else have tokens that say the same.
-/

namespace EnglishPages

open Text

namespace Token

def content (t : Token) : TokenKind × String := (t.kind, t.value)

def upToEnd : List Token → List Token
  | [] => []
  | t :: ts => if t.isEnd then [t] else t :: upToEnd ts

/-- Two lists of tokens that say the same one by one up to the end of the input. -/
def SayTheSame (ts us : List Token) : Prop :=
  (upToEnd ts).map content = (upToEnd us).map content

theorem unplaced_eq_of_content {t u : Token} (h : t.content = u.content) :
    t.unplaced = u.unplaced := by
  obtain ⟨hkind, hvalue⟩ := Prod.mk.inj h
  rw [unplaced, unplaced, hkind, hvalue]

theorem map_unplaced_eq {ts us : List Token} (h : ts.map content = us.map content) :
    ts.map unplaced = us.map unplaced := by
  induction ts generalizing us with
  | nil =>
      obtain rfl := List.map_eq_nil_iff.1 h.symm
      rfl
  | cons t ts ih =>
      obtain ⟨u, us', rfl, hu, hus⟩ := List.map_eq_cons_iff.1 h.symm
      rw [List.map_cons, List.map_cons, unplaced_eq_of_content hu.symm, ih hus.symm]

theorem map_content_takeWhile (ts : List Token) :
    (ts.takeWhile (!·.isEnd)).map content =
      ((upToEnd ts).map content).takeWhile (·.1 != .endOfInput) := by
  induction ts with
  | nil => rfl
  | cons t ts ih =>
      have hkind : (t.content.1 != .endOfInput) = !t.isEnd := rfl
      cases hend : t.isEnd with
      | true => simp [upToEnd, hend, hkind]
      | false => simp [upToEnd, hend, hkind, ih]

theorem content_endToken (ts : List Token) :
    (Scan.endToken ts).content =
      (((upToEnd ts).map content).find? (·.1 == .endOfInput)).getD (.endOfInput, "") := by
  have hfind : ((upToEnd ts).map content).find? (·.1 == .endOfInput) =
      (ts.find? isEnd).map content := by
    induction ts with
    | nil => rfl
    | cons t ts ih =>
        have hkind : (t.content.1 == .endOfInput) = t.isEnd := rfl
        cases hend : t.isEnd with
        | true => simp [upToEnd, hend, hkind]
        | false => simp [upToEnd, hend, hkind, ih]
  rw [hfind, Scan.endToken]
  cases ts.find? isEnd with
  | some t => rfl
  | none => cases ts.getLast? <;> rfl

end Token

/-- Two results of reading tokens: documents with the same statements, or errors that ask for the
same and have found the same. -/
inductive SameReading : Except ParseError Document → Except ParseError Document → Prop
  | documents {d d' : Document} (h : d.unplaced = d'.unplaced) : SameReading (.ok d) (.ok d')
  | errors {e e' : ParseError} (h : e.mismatch = e'.mismatch) : SameReading (.error e) (.error e')

theorem Document.sameReading_ofTokens {ts us : List Token} (h : Token.SayTheSame ts us) :
    SameReading (ofTokens ts) (ofTokens us) := by
  have htokens : (ts.takeWhile (!·.isEnd)).map Token.unplaced =
      (us.takeWhile (!·.isEnd)).map Token.unplaced := by
    apply Token.map_unplaced_eq
    rw [Token.map_content_takeWhile, Token.map_content_takeWhile, h]
  have hend : (Scan.endToken ts).unplaced = (Scan.endToken us).unplaced := by
    apply Token.unplaced_eq_of_content
    rw [Token.content_endToken, Token.content_endToken, h]
  -- Without places the two scans are one scan.
  have hscan := Scan.headers_unplaced (Scan.endToken ts) (ts.takeWhile (!·.isEnd))
  rw [htokens, hend, Scan.headers_unplaced] at hscan
  rw [ofTokens_eq, ofTokens_eq, Scan.ofTokens, Scan.ofTokens]
  cases hts : Scan.headers (Scan.endToken ts) (ts.takeWhile (!·.isEnd)) with
  | error e =>
      cases hus : Scan.headers (Scan.endToken us) (us.takeWhile (!·.isEnd)) with
      | error e' =>
          rw [hts, hus] at hscan
          have hmismatch := congrArg ParseError.mismatch (Except.error.inj hscan)
          exact .errors hmismatch.symm
      | ok hs' =>
          rw [hts, hus] at hscan
          cases hscan
  | ok hs =>
      cases hus : Scan.headers (Scan.endToken us) (us.takeWhile (!·.isEnd)) with
      | error e' =>
          rw [hts, hus] at hscan
          cases hscan
      | ok hs' =>
          rw [hts, hus] at hscan
          have hheaders := Except.ok.inj hscan
          refine .documents (congrArg Document.mk ?_)
          rw [← Outline.nodes_unplaced, ← Outline.nodes_unplaced, Outline.unplaced_nest,
            Outline.unplaced_nest, hheaders]

/-- Two reports that differ at most in the places that their diagnostics name. -/
structure CompileReport.SameButPlaces (r r' : CompileReport) : Prop where
  success : r.success = r'.success
  html : r.html = r'.html
  error : r.error = r'.error
  diagnostics : r.diagnostics.map Diagnostic.unplaced = r'.diagnostics.map Diagnostic.unplaced

theorem ParseError.unplaced_toDiagnostic {e e' : ParseError} (h : e.mismatch = e'.mismatch) :
    e.toDiagnostic.unplaced = e'.toDiagnostic.unplaced := by
  simp [toDiagnostic, Diagnostic.unplaced, message, h]

theorem SameReading.report {r r' : Except ParseError Document} (h : SameReading r r')
    (base : Path) (load : Loader) (config : Config) :
    (CompileReport.ofResult (r.map fun d => d.compile base load config)).SameButPlaces
      (CompileReport.ofResult (r'.map fun d => d.compile base load config)) := by
  cases h with
  | @documents d d' h =>
      have hhtml : (d.compile base load config).html = (d'.compile base load config).html := by
        rw [← d.html_compile_unplaced, ← d'.html_compile_unplaced, h]
      refine ⟨(rfl : true = true), congrArg some hhtml, (rfl : Option.none = none), ?_⟩
      change (d.compile base load config).diagnostics.map Diagnostic.unplaced =
        (d'.compile base load config).diagnostics.map Diagnostic.unplaced
      rw [← d.diagnostics_compile_unplaced, ← d'.diagnostics_compile_unplaced, h]
  | @errors e e' h =>
      have hmessage : e.message = e'.message := by simp only [ParseError.message, h]
      refine ⟨(rfl : false = false), (rfl : Option.none = none), congrArg some hmessage, ?_⟩
      change [e.toDiagnostic.unplaced] = [e'.toDiagnostic.unplaced]
      rw [ParseError.unplaced_toDiagnostic h]

namespace Token

def IsGap (cs : List Char) : Prop := ∀ c ∈ cs, starts c = false

instance (cs : List Char) : Decidable (IsGap cs) :=
  List.decidableBAll (fun c => starts c = false) cs

def IsWordText (cs : List Char) : Prop :=
  (∃ c ∈ cs.head?, c.isAlpha = true) ∧ ∀ c ∈ cs, isWordChar c = true

instance (cs : List Char) : Decidable (IsWordText cs) :=
  @instDecidableAnd _ _ (Option.decidableExistsMem cs.head?)
    (List.decidableBAll (fun c => isWordChar c = true) cs)

def StopsWord (cs : List Char) : Prop := ∀ c ∈ cs.head?, isWordChar c = false

instance (cs : List Char) : Decidable (StopsWord cs) := Option.decidableForallMem cs.head?

/-- `Relaid cs ds`: the two texts have the same strings and paths and the same words up to the case
of ASCII letters, in the same order. Between them they may have any gaps. -/
inductive Relaid : List Char → List Char → Prop
  | same {gap gap' : List Char} (hgap : IsGap gap) (hgap' : IsGap gap') (cs : List Char) :
      Relaid (gap ++ cs) (gap' ++ cs)
  | word {gap gap' word word' cs cs' : List Char} (hgap : IsGap gap) (hgap' : IsGap gap')
      (hword : IsWordText word) (hcase : word.map Char.toLower = word'.map Char.toLower)
      (hcs : StopsWord cs) (hcs' : StopsWord cs') (h : Relaid cs cs') :
      Relaid (gap ++ (word ++ cs)) (gap' ++ (word' ++ cs'))
  | string {gap gap' inside cs cs' : List Char} (hgap : IsGap gap) (hgap' : IsGap gap')
      (hinside : StringInside inside) (h : Relaid cs cs') :
      Relaid (gap ++ '"' :: (inside ++ '"' :: cs)) (gap' ++ '"' :: (inside ++ '"' :: cs'))
  | path {gap gap' inside cs cs' : List Char} (hgap : IsGap gap) (hgap' : IsGap gap')
      (hinside : ']' ∉ inside) (h : Relaid cs cs') :
      Relaid (gap ++ '[' :: (inside ++ ']' :: cs)) (gap' ++ '[' :: (inside ++ ']' :: cs'))

theorem isAlpha_toLower (c : Char) : c.toLower.isAlpha = c.isAlpha := by
  by_cases h : c.isUpper = true
  · have halpha : c.isAlpha = true := Bool.or_eq_true_iff.2 (.inl h)
    rw [halpha]
    exact Bool.or_eq_true_iff.2 (.inr (Text.isLower_toLower halpha))
  · rw [Text.toLower_eq_self (Bool.eq_false_iff.2 h)]

theorem isWordChar_toLower (c : Char) : isWordChar c.toLower = isWordChar c := by
  by_cases h : c.isUpper = true
  · have halpha : c.isAlpha = true := Bool.or_eq_true_iff.2 (.inl h)
    have hlower : c.toLower.isAlpha = true := (isAlpha_toLower c).trans halpha
    rw [isWordChar_of_isAlpha halpha, isWordChar_of_isAlpha hlower]
  · rw [Text.toLower_eq_self (Bool.eq_false_iff.2 h)]

theorem IsWordText.of_map_toLower {word word' : List Char} (hword : IsWordText word)
    (h : word.map Char.toLower = word'.map Char.toLower) : IsWordText word' := by
  constructor
  · obtain ⟨c, hc, halpha⟩ := hword.1
    obtain ⟨cs, rfl⟩ := List.head?_eq_some_iff.1 hc
    obtain ⟨d, ds, rfl, hd, -⟩ := List.map_eq_cons_iff.1 h.symm
    refine ⟨d, rfl, ?_⟩
    rw [← isAlpha_toLower, hd, isAlpha_toLower, halpha]
  · intro d hd
    have hmem : d.toLower ∈ word.map Char.toLower := h ▸ List.mem_map_of_mem hd
    obtain ⟨c, hc, hcd⟩ := List.mem_map.1 hmem
    rw [← isWordChar_toLower, ← hcd, isWordChar_toLower, hword.2 c hc]

theorem unplacedTokens_gap {gap : List Char} (hgap : IsGap gap) (cs : List Char) :
    unplacedTokens (gap ++ cs) = unplacedTokens cs := by
  rw [unplacedTokens, scanFrom_gap hgap]
  exact map_unplaced_scanFrom 0 _ _ cs

theorem unplacedTokens_quoted {mark mark' : Char} {inside cs : List Char} {kind : TokenKind}
    {value : String} (h : lexeme? (mark :: (inside ++ mark' :: cs)) =
      some ⟨kind, value, mark :: (inside ++ [mark'])⟩) :
    unplacedTokens (mark :: (inside ++ mark' :: cs)) =
      ⟨kind, value, 0, 0, .empty 0⟩ :: unplacedTokens cs := by
  have htext : mark :: (inside ++ mark' :: cs) = mark :: (inside ++ [mark']) ++ cs := by simp
  rw [htext] at h ⊢
  exact unplacedTokens_lexeme (l := ⟨kind, value, mark :: (inside ++ [mark'])⟩) h

theorem Relaid.unplacedTokens_eq {cs ds : List Char} (h : Relaid cs ds) :
    unplacedTokens cs = unplacedTokens ds := by
  induction h with
  | same hgap hgap' cs => rw [unplacedTokens_gap hgap, unplacedTokens_gap hgap']
  | @word gap gap' word word' cs cs' hgap hgap' hword hcase hcs hcs' h ih =>
      have hword' := hword.of_map_toLower hcase
      have hfirst := unplacedTokens_lexeme (l := wordLexeme word)
        (lexeme?_word_text hword.1 hword.2 hcs)
      have hsecond := unplacedTokens_lexeme (l := wordLexeme word')
        (lexeme?_word_text hword'.1 hword'.2 hcs')
      have hlexeme : (wordLexeme word).kind = (wordLexeme word').kind ∧
          (wordLexeme word).value = (wordLexeme word').value := by
        simp only [wordLexeme, hcase, and_self]
      rw [unplacedTokens_gap hgap, unplacedTokens_gap hgap']
      change unplacedTokens ((wordLexeme word).text ++ cs) =
        unplacedTokens ((wordLexeme word').text ++ cs')
      rw [hfirst, hsecond, hlexeme.1, hlexeme.2, ih]
  | @string gap gap' inside cs cs' hgap hgap' hinside h ih =>
      obtain ⟨value, hquotes⟩ := hinside
      rw [unplacedTokens_gap hgap, unplacedTokens_gap hgap',
        unplacedTokens_quoted (lexeme?_quotes hquotes cs),
        unplacedTokens_quoted (lexeme?_quotes hquotes cs'), ih]
  | @path gap gap' inside cs cs' hgap hgap' hinside h ih =>
      rw [unplacedTokens_gap hgap, unplacedTokens_gap hgap',
        unplacedTokens_quoted (lexeme?_path hinside cs),
        unplacedTokens_quoted (lexeme?_path hinside cs'), ih]

theorem map_content_unplacedTokens (source : String) :
    (unplacedTokens source.toList).map content = (tokenize source).map content := by
  rw [unplacedTokens, List.map_map]
  rfl

theorem sayTheSame_of_map {ts us : List Token} (h : ts.map content = us.map content) :
    SayTheSame ts us := by
  induction ts generalizing us with
  | nil =>
      obtain rfl := List.map_eq_nil_iff.1 h.symm
      rfl
  | cons t ts ih =>
      obtain ⟨u, us', rfl, hu, hus⟩ := List.map_eq_cons_iff.1 h.symm
      have hend : t.isEnd = u.isEnd := congrArg (fun say => say.1 == .endOfInput) hu.symm
      have htail := ih hus.symm
      unfold SayTheSame at htail ⊢
      rw [upToEnd, upToEnd, hend]
      cases u.isEnd with
      | true => simp [hu]
      | false => simp [hu, htail]

theorem Relaid.sayTheSame {a b : String} (h : Relaid a.toList b.toList) :
    SayTheSame (tokenize a) (tokenize b) := by
  apply sayTheSame_of_map
  rw [← map_content_unplacedTokens, ← map_content_unplacedTokens, h.unplacedTokens_eq]

end Token

/-- Layout and case do not matter: to the parser only what the tokens say up to the end of the input
matters, hence for the report of a compilation too, and relaid sources have tokens that say the
same. -/
theorem compile_ignores_layout :
    (∀ ts us : List Token, Token.SayTheSame ts us →
      SameReading (Document.ofTokens ts) (Document.ofTokens us)) ∧
    (∀ a b : String, Token.SayTheSame (Token.tokenize a) (Token.tokenize b) →
      ∀ (base : Path) (load : Loader) (config : Config),
        (CompileReport.ofResult (compile a base load config)).SameButPlaces
          (CompileReport.ofResult (compile b base load config))) ∧
    ∀ a b : String, Token.Relaid a.toList b.toList →
      Token.SayTheSame (Token.tokenize a) (Token.tokenize b) := by
  refine ⟨fun ts us h => Document.sameReading_ofTokens h, ?_, fun a b h => h.sayTheSame⟩
  intro a b h base load config
  exact (Document.sameReading_ofTokens h).report base load config

/-- The same page in one line and shouted over several, with a stray comma and a number. -/
theorem compile_ignores_layout_shouted :
    Token.Relaid "create page add title \"One\"".toList "CREATE\n  Page, 1\nADD TITLE\"One\".".toList ∧
      ∀ (base : Path) (load : Loader) (config : Config),
        (CompileReport.ofResult
            (compile "create page add title \"One\"" base load config)).SameButPlaces
          (CompileReport.ofResult
            (compile "CREATE\n  Page, 1\nADD TITLE\"One\"." base load config)) := by
  have hend : Token.Relaid [] ['.'] :=
    @Token.Relaid.same [] ['.'] (by decide) (by decide) []
  have hinside : Token.StringInside "One".toList :=
    ⟨_, .plain (by decide) (.plain (by decide) (.plain (by decide) .nil))⟩
  have htext : Token.Relaid " \"One\"".toList "\"One\".".toList :=
    @Token.Relaid.string [' '] [] "One".toList [] ['.'] (by decide) (by decide) hinside hend
  have htitle : Token.Relaid " title \"One\"".toList " TITLE\"One\".".toList :=
    @Token.Relaid.word [' '] [' '] "title".toList "TITLE".toList _ _ (by decide) (by decide)
      (by decide) (by decide) (by decide) (by decide) htext
  have hadd : Token.Relaid " add title \"One\"".toList ", 1\nADD TITLE\"One\".".toList :=
    @Token.Relaid.word [' '] ", 1\n".toList "add".toList "ADD".toList _ _ (by decide) (by decide)
      (by decide) (by decide) (by decide) (by decide) htitle
  have hpage : Token.Relaid " page add title \"One\"".toList
      "\n  Page, 1\nADD TITLE\"One\".".toList :=
    @Token.Relaid.word [' '] "\n  ".toList "page".toList "Page".toList _ _ (by decide) (by decide)
      (by decide) (by decide) (by decide) (by decide) hadd
  have hsource : Token.Relaid "create page add title \"One\"".toList
      "CREATE\n  Page, 1\nADD TITLE\"One\".".toList :=
    @Token.Relaid.word [] [] "create".toList "CREATE".toList _ _ (by decide) (by decide)
      (by decide) (by decide) (by decide) (by decide) hpage
  exact ⟨hsource, compile_ignores_layout.2.1 _ _ (compile_ignores_layout.2.2 _ _ hsource)⟩

end EnglishPages
