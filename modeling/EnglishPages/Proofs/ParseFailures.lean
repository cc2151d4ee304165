import EnglishPages.Compilation
import EnglishPages.Proofs.ImportResolution
import EnglishPages.Proofs.StatementSpans

/-!
How a compilation fails. Only parsing fails, and parsing fails in one way: an `add` is read as a
statement and no word stands behind it. The readers ask for other tokens too, but each is called
where the token that it asks for stands; the scan has no such request, and it fails as the parser
does.

What goes wrong with imports is reported by warnings alone, so the report of a compilation is an
error report if and only if the source does not parse.
-/

namespace EnglishPages

namespace Scan

variable {eof t : Token} {ts : List Token} {e : ParseError}

theorem add_eq_error (heof : eof.isWord = false) (h : add eof t ts = .error e) :
    ∃ found rest, ts ++ [eof] = found :: rest ∧ found.isWord = false ∧
      e = .atToken found (.kind .word found.kind) := by
  cases ts with
  | nil =>
      cases h
      exact ⟨eof, [], rfl, heof, rfl⟩
  | cons word ts =>
      rw [add] at h
      split at h
      · cases h
      · next hword =>
          cases h
          exact ⟨word, ts ++ [eof], rfl, by simpa using hword, rfl⟩

theorem header_eq_error (h : header eof t ts = .error e) :
    t.isKeyword "add" = true ∧ add eof t ts = .error e := by
  unfold header at h
  split at h
  · cases h
  next hkind =>
  split at h
  · cases h
  split at h
  · next hvalue => exact ⟨by simp_all [Token.isKeyword], h⟩
  split at h
  · cases h
  split at h
  · cases h
  split at h
  · cases h
  · cases h

theorem headersFrom_eq_error {skip : Nat} (h : headersFrom eof skip ts = .error e) :
    ∃ before t rest, ts = before ++ t :: rest ∧ header eof t rest = .error e := by
  induction ts generalizing skip with
  | nil => cases skip <;> cases h
  | cons t ts ih =>
      have hlater {skip : Nat} (h : headersFrom eof skip ts = .error e) :
          ∃ before u rest, t :: ts = before ++ u :: rest ∧ header eof u rest = .error e := by
        obtain ⟨before, u, rest, rfl, hheader⟩ := ih h
        exact ⟨t :: before, u, rest, rfl, hheader⟩
      cases skip with
      | succ skip => exact hlater h
      | zero =>
          rw [headersFrom] at h
          cases hheader : header eof t ts with
          | error e' =>
              rw [hheader] at h
              cases h
              exact ⟨[], t, ts, rfl, hheader⟩
          | ok r =>
              rw [hheader] at h
              change headersFrom eof r.2.length ts >>= _ = _ at h
              cases hrest : headersFrom eof r.2.length ts with
              | error e' =>
                  rw [hrest] at h
                  cases h
                  exact hlater hrest
              | ok hs =>
                  rw [hrest] at h
                  cases h

end Scan

namespace Document

open Scan Token

theorem parse_eq_error_iff {source : String} {e : ParseError} :
    parse source = .error e ↔ Scan.ofTokens (tokenize source) = .error e := by
  rw [parse, ofTokens_eq]
  cases Scan.ofTokens (tokenize source) with
  | error e' => simp [Except.map]
  | ok hs => simp [Except.map]

theorem exists_add_of_parse {source : String} {e : ParseError} (h : parse source = .error e) :
    ∃ add found, [add, found] <:+: tokenize source ∧ add.isKeyword "add" = true ∧
      found.isWord = false ∧ e = .atToken found (.kind .word found.kind) := by
  obtain ⟨ts, _, _, eof, hreads, -, htokens, heof, -⟩ := exists_reads_tokenize source
  have hscan := ofTokens_append_end (fun t ht => hreads.kind_ne_endOfInput ht) heof
  rw [← htokens, parse_eq_error_iff.1 h] at hscan
  obtain ⟨before, add, rest, rfl, hheader⟩ := headersFrom_eq_error hscan.symm
  obtain ⟨hadd, herror⟩ := header_eq_error hheader
  have hword : eof.isWord = false := by simp [Token.isWord, heof]
  obtain ⟨found, after, hfound, hno, rfl⟩ := add_eq_error hword herror
  refine ⟨add, found, ⟨before, after, ?_⟩, hadd, hno, rfl⟩
  simp only [htokens, List.append_assoc, List.cons_append, List.nil_append, hfound]

theorem exists_parse {source : String} (h : ∀ add found, [add, found] <:+: tokenize source →
    add.isKeyword "add" = true → found.isWord = true) : ∃ d, parse source = .ok d := by
  cases hparse : parse source with
  | ok d => exact ⟨d, rfl⟩
  | error e =>
      obtain ⟨add, found, hinfix, hadd, hno, -⟩ := exists_add_of_parse hparse
      rw [h add found hinfix hadd] at hno
      cases hno

end Document

theorem Import.severity_of_warning? {base : Path} {load : Loader} {i : Import} {w : Diagnostic}
    (h : i.warning? base load = some w) : w.severity = .warning := by
  unfold warning? at h
  split at h
  · cases h
    rfl
  · split at h
    · cases h
      rfl
    · cases h

theorem Document.severity_of_compile {d : Document} {base : Path} {load : Loader} {config : Config}
    {w : Diagnostic} (h : w ∈ (d.compile base load config).diagnostics) :
    w.severity = .warning := by
  unfold compile at h
  dsimp only at h
  split at h
  · rw [resolutionWarnings_eq] at h
    obtain ⟨i, -, hi⟩ := List.mem_filterMap.1 h
    exact i.severity_of_warning? hi
  · cases h

section Report

variable {source : String} {base : Path} {load : Loader} {config : Config}

theorem ofResult_compile_of_error {e : ParseError} (h : Document.parse source = .error e) :
    CompileReport.ofResult (compile source base load config) =
      ⟨none, some e.message, [e.toDiagnostic]⟩ := by
  rw [compile, h]
  rfl

theorem ofResult_compile_of_ok {d : Document} (h : Document.parse source = .ok d) :
    CompileReport.ofResult (compile source base load config) =
      ⟨some (d.compile base load config).html, none, (d.compile base load config).diagnostics⟩ := by
  rw [compile, h]
  rfl

end Report

/-- A compilation fails if and only if its source does not parse. Its report is then the text of the
parse error and that error as the only diagnostic; otherwise the report has the page, and no
diagnostic that is an error. A parse error asks for a word and is placed at the string, the path or
the end of the input that stands directly behind an `add`, and if a word stands behind each, there is
none. -/
theorem report_of_compile (source : String) (base : Path) (load : Loader) (config : Config) :
    let report := CompileReport.ofResult (compile source base load config)
    (report.success = false ↔ ∃ e, Document.parse source = .error e) ∧
    (∀ e, Document.parse source = .error e →
      report.html = none ∧ report.error = some e.message ∧
      (∃ d, report.diagnostics = [d] ∧ d.id = "ENG1001" ∧ d.severity = .error ∧
        d.message = e.message ∧ d.span = some e.span) ∧
      ∃ add found, [add, found] <:+: Token.tokenize source ∧ add.isKeyword "add" = true ∧
        found.kind ∈ [.string, .path, .endOfInput] ∧
        e.message = "Expected KEYWORD or IDENTIFIER, got " ++ found.kind.name ∧
        e = ⟨.kind .word found.kind, found.line, found.column, found.span⟩) ∧
    (∀ d, Document.parse source = .ok d →
      report.html.isSome ∧ report.error = none ∧
        ∀ w ∈ report.diagnostics, w.severity ≠ .error) ∧
    ((∀ add found, [add, found] <:+: Token.tokenize source → add.isKeyword "add" = true →
      found.isWord = true) → ∃ d, Document.parse source = .ok d) := by
  refine ⟨?_, fun e he => ?_, fun d hd => ?_, Document.exists_parse⟩
  · cases hparse : Document.parse source with
    | error e => simp [ofResult_compile_of_error hparse, CompileReport.success]
    | ok d => simp [ofResult_compile_of_ok hparse, CompileReport.success]
  · rw [ofResult_compile_of_error he]
    obtain ⟨add, found, hinfix, hadd, hno, rfl⟩ := Document.exists_add_of_parse he
    have hkind : found.kind ∈ [.string, .path, .endOfInput] := by
      cases hkind : found.kind <;> simp_all [Token.isWord]
    exact ⟨rfl, rfl, ⟨_, rfl, rfl, rfl, rfl, rfl⟩, add, found, hinfix, hadd, hkind, rfl, rfl⟩
  · rw [ofResult_compile_of_ok hd]
    refine ⟨rfl, rfl, fun w hw => ?_⟩
    rw [Document.severity_of_compile hw]
    decide

/-- The second `add` is what the first one adds; the third one is read as a statement. -/
theorem report_of_compile_two_adds :
    let source := "add add \"x\" add\n [p]"
    let report := CompileReport.ofResult (compile source ⟨"site"⟩ Sources.empty.loader .default)
    Document.parse source = .error ⟨.kind .word .path, 2, 2, ⟨17, 20⟩⟩ ∧
      report.html = none ∧ report.error = some "Expected KEYWORD or IDENTIFIER, got PATH" := by
  have htokens : Token.tokenize "add add \"x\" add\n [p]" =
      [⟨.keyword, "add", 1, 1, ⟨0, 3⟩⟩, ⟨.keyword, "add", 1, 5, ⟨4, 7⟩⟩,
        ⟨.string, "x", 1, 9, ⟨8, 11⟩⟩, ⟨.keyword, "add", 1, 13, ⟨12, 15⟩⟩,
        ⟨.path, "p", 2, 2, ⟨17, 20⟩⟩, ⟨.endOfInput, "", 2, 5, .empty 20⟩] := by decide +kernel
  have hparse : Document.parse "add add \"x\" add\n [p]" =
      .error ⟨.kind .word .path, 2, 2, ⟨17, 20⟩⟩ := by
    rw [Document.parse_eq_error_iff, htokens]
    rfl
  obtain ⟨-, hfails, -, -⟩ :=
    report_of_compile "add add \"x\" add\n [p]" ⟨"site"⟩ Sources.empty.loader .default
  obtain ⟨hhtml, herror, -, -⟩ := hfails _ hparse
  exact ⟨hparse, hhtml, herror⟩

end EnglishPages
