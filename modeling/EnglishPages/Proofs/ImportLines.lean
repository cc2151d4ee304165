import EnglishPages.Proofs.SourceJoins

/-!
An `import` alone in its line. The word behind it is its type, whatever word that is but `from`, and so
a statement in the next line loses its first word to it and what is left is read as if the word had
not been there. Behind `import from` only a path can still belong to the import, and a statement in the
next line is safe.
-/

namespace EnglishPages

open Token

namespace Scan

variable {eof t : Token}

theorem header_of_import (h : t.isKeyword "import" = true) (eof : Token) (ts : List Token) :
    header eof t ts = .ok (importing t ts) := by
  obtain ⟨hkind, hvalue⟩ : t.kind = .keyword ∧ t.value = "import" := by
    simpa [Token.isKeyword] using h
  simp [header, hkind, hvalue]

theorem importPhrase_append_end (heof : eof.isEnd = true) (ts : List Token) :
    importPhrase (ts ++ [eof]) = importPhrase ts := by
  have hnone {p : Token → Bool} (hp : p eof = true → eof.isEnd = false) : p eof = false := by
    refine Bool.eq_false_iff.2 fun h => ?_
    rw [hp h] at heof
    cases heof
  have hword : (eof.isWord && !Cursor.isFrom eof) = false :=
    hnone (p := fun t => t.isWord && !Cursor.isFrom t) fun h =>
      Cursor.isEnd_of_isWord (Bool.and_eq_true_iff.1 h).1
  have hextension : isExtension eof = false :=
    hnone fun h => Cursor.isEnd_of_hasKind (by decide) (Bool.and_eq_true_iff.1 h).1
  exact importPhrase_append_of_endsAt (endsAt_leading hword ts []) (hnone Cursor.isEnd_of_isFrom)
    (.pathPhrase (hnone (Cursor.isEnd_of_hasKind (by decide))) hextension)

theorem type_importPhrase {ts : List Token} (hfirst : ts.head? = some t)
    (ht : startsStatement t = true) : (importPhrase ts).type = [t] := by
  obtain ⟨us, rfl⟩ := List.head?_eq_some_iff.1 hfirst
  have hword : t.isWord = true := by
    rw [Token.isWord, kind_of_startsStatement ht]
    rfl
  rw [importPhrase, leading_cons, hword, isFrom_of_startsStatement ht]
  rfl

theorem headers_import (r : Relocation) (h : t.isKeyword "import" = true) (eof : Token)
    (us : List Token) :
    headers (r.token eof) (t :: us.map r.token) =
      r.result
        (fun later => .leaf (.importing ⟨text? (importPhrase us).type, path? (importPhrase us).path,
          none, extent t ((importPhrase us).tokens.map r.token)⟩) :: later.map r.header)
        (headers eof (us.drop (importPhrase us).tokens.length)) := by
  rw [headers_cons, header_of_import h, importing, importPhrase_relocated, tokens_relocated]
  change (headers (r.token eof) ((us.map r.token).drop (List.map _ _).length)).map _ = _
  rw [List.length_map, ← List.map_drop, headers_relocated]
  simp only [ImportPhrase.relocated, text?_relocated, path?_relocated]
  cases headers eof (us.drop (importPhrase us).tokens.length) with
  | error e => rfl
  | ok later => rfl

end Scan

namespace Document

open Scan

theorem ofTokens_of_leaf {ts us : List Token} {r : Relocation} {l : Leaf}
    (h : Scan.ofTokens ts =
      r.result (fun later => .leaf l :: later.map r.header) (Scan.ofTokens us)) :
    ofTokens ts = r.result (fun d => ⟨l.node :: r.nodes d.nodes⟩) (ofTokens us) := by
  rw [ofTokens_eq, ofTokens_eq, h]
  cases Scan.ofTokens us with
  | error e => rfl
  | ok later =>
      have hnodes : (Outline.nest (.leaf l :: later.map r.header)).nodes =
          l.node :: r.nodes (Outline.nest later).nodes := by
        rw [Outline.nest_cons, ← Relocation.outline_nest, ← Relocation.nodes_outline]
        rfl
      exact congrArg (fun nodes => Except.ok (Document.mk nodes)) hnodes

def importWord : Token := ⟨.keyword, "import", 1, 1, ⟨0, 6⟩⟩

theorem tokenize_import_append (b : String) :
    tokenize ("import" ++ "\n" ++ b) =
      importWord :: (tokenize b).map (Relocation.below "import").token := by
  obtain ⟨ts, q, rest, eof, hreads, hrest, htokens, -, -⟩ := exists_reads_tokenize "import"
  have hword : tokenize "import" = [importWord] ++ [⟨.endOfInput, "", 1, 7, .empty 6⟩] := by
    decide +kernel
  obtain ⟨rfl, -⟩ := List.append_inj' (htokens.symm.trans hword) rfl
  exact hreads.tokenize_line hrest (List.forall_mem_singleton.2 trivial) b

theorem parse_import_append (b : String) :
    parse ("import" ++ "\n" ++ b) =
      (Relocation.below "import").result
        (fun d => ⟨.importing ⟨text? (importPhrase (tokenize b)).type,
            path? (importPhrase (tokenize b)).path, none,
            extent importWord
              ((importPhrase (tokenize b)).tokens.map (Relocation.below "import").token)⟩ ::
          (Relocation.below "import").nodes d.nodes⟩)
        (ofTokens ((tokenize b).drop (importPhrase (tokenize b)).tokens.length)) := by
  obtain ⟨us, _, _, eof, hreads, -, htokens, heof, -⟩ := exists_reads_tokenize b
  have hus : ∀ u ∈ us, u.kind ≠ .endOfInput := fun u hu => hreads.kind_ne_endOfInput hu
  have hall : ∀ u ∈ importWord :: us.map (Relocation.below "import").token,
      u.kind ≠ .endOfInput := by
    refine List.forall_mem_cons.2 ⟨by decide, fun u hu => ?_⟩
    obtain ⟨v, hv, rfl⟩ := List.mem_map.1 hu
    exact hus v hv
  have htaken : importPhrase (tokenize b) = importPhrase us := by
    rw [htokens, importPhrase_append_end (beq_iff_eq.2 heof)]
  have hleft : Scan.ofTokens ((tokenize b).drop (importPhrase us).tokens.length) =
      headers eof (us.drop (importPhrase us).tokens.length) := by
    rw [htokens, drop_append_of_front (importPhrase_front us)]
    exact ofTokens_append_end (fun u hu => hus u (List.mem_of_mem_drop hu)) heof
  refine ofTokens_of_leaf (l := .importing _) ?_
  rw [htaken, hleft, tokenize_import_append, htokens, List.map_append, ← List.cons_append,
    ← headers_import _ rfl]
  exact ofTokens_append_end hall heof

theorem parse_import_from_append {b : String}
    (hb : ∃ t ∈ (tokenize b).head?, startsStatement t = true) :
    parse ("import from" ++ "\n" ++ b) =
      (Relocation.below "import from").result
        (fun d => ⟨.importing ⟨none, none, none, ⟨0, 11⟩⟩ ::
          (Relocation.below "import from").nodes d.nodes⟩)
        (parse b) := by
  have htokens : tokenize "import from" =
      [⟨.keyword, "import", 1, 1, ⟨0, 6⟩⟩, ⟨.keyword, "from", 1, 8, ⟨7, 11⟩⟩,
        ⟨.endOfInput, "", 1, 12, .empty 11⟩] := by
    decide +kernel
  have hscan : Scan.ofTokens (tokenize "import from") =
      .ok [.leaf (.importing ⟨none, none, none, ⟨0, 11⟩⟩)] := by
    rw [htokens]
    rfl
  have hclosed : ∀ t ∈ tokenize "import from", t.IsClosed "import from" := by
    rw [htokens]
    exact List.forall_mem_cons.2 ⟨trivial, List.forall_mem_cons.2 ⟨trivial,
      List.forall_mem_singleton.2 trivial⟩⟩
  have hlast : ∀ t ∈ (tokenize "import from").dropLast.getLast?, t.isKeyword "import" = false := by
    rw [htokens]
    rintro _ ⟨⟩
    rfl
  exact ofTokens_of_leaf (ofTokens_append_newline hscan hclosed hlast hb)

/-- Let `b` start with a word that starts a statement. Behind a line `import` that word is the type of
the import, which also takes a `from` and a path that follow it, and what is left of `b` is read as
a source of its own: the document is the import and the statements of the rest, and if the rest
cannot be read, that is the error. Behind a line `import from` all of `b` is read so, and the import
has no type and no path. -/
theorem parse_import_line {b : String} {t : Token} (hfirst : (tokenize b).head? = some t)
    (ht : startsStatement t = true) :
    (importPhrase (tokenize b)).type = [t] ∧
      parse ("import" ++ "\n" ++ b) =
        (Relocation.below "import").result
          (fun d => ⟨.importing ⟨some t.value, path? (importPhrase (tokenize b)).path, none,
              extent importWord
                ((importPhrase (tokenize b)).tokens.map (Relocation.below "import").token)⟩ ::
            (Relocation.below "import").nodes d.nodes⟩)
          (ofTokens ((tokenize b).drop (importPhrase (tokenize b)).tokens.length)) ∧
      parse ("import from" ++ "\n" ++ b) =
        (Relocation.below "import from").result
          (fun d => ⟨.importing ⟨none, none, none, ⟨0, 11⟩⟩ ::
            (Relocation.below "import from").nodes d.nodes⟩)
          (parse b) := by
  have htype : (importPhrase (tokenize b)).type = [t] := type_importPhrase hfirst ht
  refine ⟨htype, ?_, parse_import_from_append ⟨t, hfirst, ht⟩⟩
  rw [parse_import_append, htype]
  rfl

/-- A page in the lines behind. Without its `create` it is no page, and the title stands beside the
import. -/
theorem parse_import_line_page :
    parse ("import" ++ "\n" ++ "create page\nadd title \"t\"") =
        .ok ⟨[.importing ⟨some "create", none, none, ⟨0, 13⟩⟩, .title "t" ⟨19, 32⟩]⟩ ∧
      parse ("import from" ++ "\n" ++ "create page\nadd title \"t\"") =
        .ok ⟨[.importing ⟨none, none, none, ⟨0, 11⟩⟩,
          .page [.title "t" ⟨24, 37⟩] ⟨12, 23⟩]⟩ := by
  have htokens : tokenize "create page\nadd title \"t\"" =
      [⟨.keyword, "create", 1, 1, ⟨0, 6⟩⟩, ⟨.keyword, "page", 1, 8, ⟨7, 11⟩⟩,
        ⟨.keyword, "add", 2, 1, ⟨12, 15⟩⟩, ⟨.keyword, "title", 2, 5, ⟨16, 21⟩⟩,
        ⟨.string, "t", 2, 11, ⟨22, 25⟩⟩, ⟨.endOfInput, "", 2, 14, .empty 25⟩] := by
    decide +kernel
  have hfirst : (tokenize "create page\nadd title \"t\"").head? =
      some ⟨.keyword, "create", 1, 1, ⟨0, 6⟩⟩ := by
    rw [htokens]
    rfl
  obtain ⟨-, himport, hfrom⟩ := parse_import_line hfirst rfl
  rw [himport, hfrom, parse, ofTokens_eq, ofTokens_eq, htokens]
  exact ⟨rfl, rfl⟩

/-- A heading in the line behind an `import` is lost: its `add` is the type of the import, and nothing
is left of it that is a statement. -/
theorem parse_import_takes_add :
    parse "import\nadd heading \"x\"" = .ok ⟨[.importing ⟨some "add", none, none, ⟨0, 10⟩⟩]⟩ ∧
      parse "add heading \"x\"" = .ok ⟨[.element ⟨.heading, "x", [], ⟨0, 15⟩⟩]⟩ := by
  have hjoined : (Scan.ofTokens (tokenize "import\nadd heading \"x\"")).toOption =
      some [.leaf (.importing ⟨some "add", none, none, ⟨0, 10⟩⟩)] := by
    decide +kernel
  have halone : (Scan.ofTokens (tokenize "add heading \"x\"")).toOption =
      some [.leaf (.element ⟨.heading, "x", [], ⟨0, 15⟩⟩)] := by
    decide +kernel
  exact ⟨parse_eq_ok_iff.2 ⟨_, eq_ok_of_toOption hjoined, rfl⟩,
    parse_eq_ok_iff.2 ⟨_, eq_ok_of_toOption halone, rfl⟩⟩

end Document

end EnglishPages
