import EnglishPages.Proofs.StatementSpans
import EnglishPages.Proofs.TokenJoins

/-!
Sources joined by a line end. A word that starts a statement ends every phrase before it: it is no
attribute, no extension of a path and no name of a function. Only directly behind an `add` or an
`import` it is taken, for the kind of an element or for a type, and a source that ends in `add` cannot
be read. So if a source that can be read does not end in `import`, its statements are read the same
with such a word behind, and the reading goes on from there as from the start of a source.

A page would take the statements of the second source into itself, and a function those up to the
next function. Where the first source has neither, the documents are one behind the other.
-/

namespace EnglishPages

open Token

namespace Scan

def startsStatement (t : Token) : Bool :=
  t.kind == .keyword && Cursor.statementWords.contains t.value

/-- The same tokens are taken with `u` behind, whatever follows it. -/
def EndsAt (u : Token) (f : List Token → List Token) : Prop :=
  ∀ ts us, f (ts ++ u :: us) = f ts

section

variable {f : List Token → List Token} {u : Token} {p : Token → Bool} {ts us : List Token}

theorem drop_append_of_front {phrase : List Token} (h : phrase <+: ts) (us : List Token) :
    (ts ++ us).drop phrase.length = ts.drop phrase.length ++ us :=
  List.drop_append_of_le_length h.length_le

theorem EndsAt.headed {g : List Token → List Token} (hg : EndsAt u g) (hp : p u = false)
    (hnil : f [] = []) (hcons : ∀ t ts, f (t :: ts) = if p t then t :: g ts else []) :
    EndsAt u f := by
  intro ts us
  cases ts with
  | nil =>
      rw [List.nil_append, hcons, hp, hnil]
      rfl
  | cons t ts => rw [List.cons_append, hcons, hcons, hg ts us]

theorem endsAt_leading (hp : p u = false) : EndsAt u (leading p) :=
  EndsAt.headed (g := fun _ => []) (fun _ _ => rfl) hp rfl (leading_cons p)

theorem endsAt_takeWhile (hp : p u = false) : EndsAt u (List.takeWhile p) := by
  intro ts us
  induction ts with
  | nil => simp [hp]
  | cons t ts ih => simp only [List.cons_append, List.takeWhile_cons, ih]

theorem EndsAt.pathPhrase (hpath : hasKind .path u = false) (hextension : isExtension u = false) :
    EndsAt u pathPhrase :=
  (endsAt_leading hextension).headed hpath rfl pathPhrase_cons

theorem importPhrase_append_of_endsAt
    (htype : leading (fun t => t.isWord && !Cursor.isFrom t) (ts ++ u :: us) =
      leading (fun t => t.isWord && !Cursor.isFrom t) ts)
    (hfrom : Cursor.isFrom u = false) (hpath : EndsAt u Scan.pathPhrase) :
    importPhrase (ts ++ u :: us) = importPhrase ts := by
  simp only [importPhrase, htype, drop_append_of_front ((isPhrase_leading _).front _),
    endsAt_leading hfrom _ us, hpath _ us]

variable (hu : startsStatement u = true)
include hu

theorem kind_of_startsStatement : u.kind = .keyword :=
  beq_iff_eq.1 (Bool.and_eq_true_iff.1 hu).1

theorem hasKind_of_startsStatement {kind : TokenKind} (hkind : kind ≠ .keyword) :
    hasKind kind u = false := by
  rw [hasKind, kind_of_startsStatement hu]
  exact beq_eq_false_iff_ne.2 hkind.symm

theorem isKeyword_of_startsStatement {word : String} (hword : word ∉ Cursor.statementWords) :
    u.isKeyword word = false := by
  have hvalue : u.value ∈ Cursor.statementWords :=
    List.contains_iff_mem.1 (Bool.and_eq_true_iff.1 hu).2
  have hne : u.value ≠ word := fun h => hword (h ▸ hvalue)
  rw [Token.isKeyword, beq_eq_false_iff_ne.2 hne, Bool.and_false]

theorem isFrom_of_startsStatement : Cursor.isFrom u = false := by
  rw [Cursor.isFrom, isKeyword_of_startsStatement hu (by decide),
    isKeyword_of_startsStatement hu (by decide), Bool.false_or]

theorem endsAt_withPhrase : EndsAt u withPhrase := by
  have hattribute : isAttribute u = false := by
    rw [isAttribute, (Bool.and_eq_true_iff.1 hu).2, Bool.not_true, Bool.and_false]
  have hwith : u.isKeyword "with" = false := isKeyword_of_startsStatement hu (by decide)
  exact (endsAt_takeWhile hattribute).headed hwith rfl fun _ _ => rfl

theorem endsAt_pathPhrase : EndsAt u pathPhrase := by
  have hextension : isExtension u = false := by
    rw [isExtension, hasKind_of_startsStatement hu (by decide), Bool.false_and]
  exact .pathPhrase (hasKind_of_startsStatement hu (by decide)) hextension

theorem importPhrase_append (hts : ts ≠ []) (us : List Token) :
    importPhrase (ts ++ u :: us) = importPhrase ts := by
  refine importPhrase_append_of_endsAt ?_ (isFrom_of_startsStatement hu) (endsAt_pathPhrase hu)
  -- The type is the one phrase that a word could lengthen, and it is decided by the first token.
  obtain ⟨t, ts, rfl⟩ := List.exists_cons_of_ne_nil hts
  rw [List.cons_append, leading_cons, leading_cons]

theorem add_append {eof t : Token} {r : Option Header × List Token} (h : add eof t ts = .ok r)
    (eof' : Token) (us : List Token) : add eof' t (ts ++ u :: us) = .ok r := by
  have hstring : hasKind .string u = false := hasKind_of_startsStatement hu (by decide)
  cases ts with
  | nil => cases h
  | cons word ts =>
      rw [add] at h
      split at h
      · next hword =>
          simp only [← h, List.cons_append, add, if_pos hword, endsAt_leading hstring ts us,
            drop_append_of_front ((isPhrase_leading _).front ts), endsAt_withPhrase hu _ us]
      · cases h

theorem header_append {eof t : Token} {r : Option Header × List Token}
    (h : header eof t ts = .ok r) (hlast : t.isKeyword "import" = true → ts ≠ []) (eof' : Token)
    (us : List Token) : header eof' t (ts ++ u :: us) = .ok r := by
  have hpage : u.isKeyword "page" = false := isKeyword_of_startsStatement hu (by decide)
  have hname : hasKind .identifier u = false := hasKind_of_startsStatement hu (by decide)
  have hstring : hasKind .string u = false := hasKind_of_startsStatement hu (by decide)
  refine header_congr h ?_ (fun hadd => add_append hu hadd eof' us) ?_ ?_ ?_ ?_
  · rintro rfl
    rw [create, create, endsAt_leading hpage ts us]
  · rintro rfl
    rw [function, function, endsAt_leading hname ts us]
  · rintro hkeyword rfl
    rw [importing, importing, importPhrase_append hu (hlast hkeyword)]
  · rintro rfl
    rw [title, title, endsAt_leading hstring ts us]
  · rintro kind rfl
    rw [script, script, endsAt_withPhrase hu ts us]

theorem headersFrom_append {eof : Token} {skip : Nat} {hs : List Header}
    (h : headersFrom eof skip ts = .ok hs) (hskip : skip ≤ ts.length)
    (hlast : ∀ t ∈ ts.getLast?, t.isKeyword "import" = false) (eof' : Token) (us : List Token) :
    headersFrom eof' skip (ts ++ u :: us) = (headers eof' (u :: us)).map (hs ++ ·) := by
  induction ts generalizing skip hs with
  | nil =>
      obtain rfl := Nat.le_zero.1 hskip
      cases h
      change headers eof' (u :: us) = _
      cases headers eof' (u :: us) <;> rfl
  | cons t ts ih =>
      have hlater : ∀ t ∈ ts.getLast?, t.isKeyword "import" = false := by
        intro v hv
        refine hlast v ?_
        rw [List.getLast?_cons, Option.mem_def.1 hv]
        rfl
      cases skip with
      | succ skip => exact ih h (Nat.le_of_succ_le_succ hskip) hlater
      | zero =>
          obtain ⟨r, later, hheader, hrest, rfl⟩ := headersFrom_zero_eq_ok h
          have himport : t.isKeyword "import" = true → ts ≠ [] := by
            rintro hkeyword rfl
            rw [hlast t rfl] at hkeyword
            cases hkeyword
          have hnext := ih hrest (header_front hheader).length_le hlater
          rw [List.cons_append, headersFrom, header_append hu hheader himport eof' us]
          change headersFrom eof' r.2.length _ >>= _ = _
          rw [hnext]
          cases headers eof' (u :: us) with
          | error e => rfl
          | ok more => exact congrArg Except.ok (List.append_assoc r.1.toList later more).symm

theorem headers_append_relocated {eof : Token} {hs : List Header} (h : headers eof ts = .ok hs)
    (hlast : ∀ t ∈ ts.getLast?, t.isKeyword "import" = false) (r : Relocation) (eof' : Token)
    (us : List Token) :
    headers (r.token eof') (ts ++ (u :: us).map r.token) =
      r.result (fun later => hs ++ later.map r.header) (headers eof' (u :: us)) := by
  have hmoved : startsStatement (r.token u) = true := hu
  have hread := headersFrom_append hmoved h (Nat.zero_le _) hlast (r.token eof') (us.map r.token)
  rw [← List.map_cons, headers_relocated] at hread
  rw [headers, hread]
  cases headers eof' (u :: us) with
  | error e => rfl
  | ok later => rfl

end

end Scan

theorem Outline.nodes_nest_append {hs : List Header}
    (h : ∀ n ∈ (nest hs).nodes, n.isPage = false ∧ n.isFunction = false) (later : List Header) :
    (nest (hs ++ later)).nodes = (nest hs).nodes ++ (nest later).nodes := by
  induction hs with
  | nil => rfl
  | cons header hs ih =>
      rw [nest_cons] at h
      cases header with
      | page span => cases (h (.page (nest hs).nodes span) List.mem_cons_self).1
      | function name span =>
          cases (h (.function name (nest hs).body span) List.mem_cons_self).2
      | leaf l =>
          have hrest : (nest (hs ++ later)).nodes = (nest hs).nodes ++ (nest later).nodes :=
            ih fun n hn => h n (List.mem_cons_of_mem _ hn)
          exact congrArg (l.node :: ·) hrest

namespace Document

open Scan

theorem ofTokens_append_newline {a b : String} {hs : List Header}
    (ha : Scan.ofTokens (tokenize a) = .ok hs) (hclosed : ∀ t ∈ tokenize a, t.IsClosed a)
    (hlast : ∀ t ∈ (tokenize a).dropLast.getLast?, t.isKeyword "import" = false)
    (hfirst : ∃ t ∈ (tokenize b).head?, startsStatement t = true) :
    Scan.ofTokens (tokenize (a ++ "\n" ++ b)) =
      (Relocation.below a).result (fun later => hs ++ later.map (Relocation.below a).header)
        (Scan.ofTokens (tokenize b)) := by
  obtain ⟨ts, q, rest, eof, hreads, hrest, htokens, heof, -⟩ := exists_reads_tokenize a
  obtain ⟨us, _, _, eof', hreads', -, htokens', heof', -⟩ := exists_reads_tokenize b
  have hts : ∀ t ∈ ts, t.kind ≠ .endOfInput := fun t ht => hreads.kind_ne_endOfInput ht
  have hus : ∀ t ∈ us, t.kind ≠ .endOfInput := fun t ht => hreads'.kind_ne_endOfInput ht
  rw [htokens] at ha hclosed hlast
  rw [htokens'] at hfirst
  rw [ofTokens_append_end hts heof] at ha
  rw [List.dropLast_concat] at hlast
  -- The mark of the end starts no statement, so the second source has a token before it.
  obtain ⟨u, us, rfl, hu⟩ : ∃ u us', us = u :: us' ∧ startsStatement u = true := by
    obtain ⟨u, hhead, hu⟩ := hfirst
    cases us with
    | nil =>
        cases hhead
        cases (kind_of_startsStatement hu).symm.trans heof'
    | cons v us =>
        cases hhead
        exact ⟨u, us, rfl, hu⟩
  have hjoined : tokenize (a ++ "\n" ++ b) =
      (ts ++ (u :: us).map (Relocation.below a).token) ++ [(Relocation.below a).token eof'] := by
    rw [hreads.tokenize_line hrest (fun t ht => hclosed t (List.mem_append_left _ ht)) b, htokens',
      List.map_append, List.append_assoc]
    rfl
  have hboth : ∀ t ∈ ts ++ (u :: us).map (Relocation.below a).token, t.kind ≠ .endOfInput := by
    intro t ht
    rcases List.mem_append.1 ht with ht | ht
    · exact hts t ht
    · obtain ⟨v, hv, rfl⟩ := List.mem_map.1 ht
      exact hus v hv
  have hend : ((Relocation.below a).token eof').kind = .endOfInput := heof'
  rw [hjoined, ofTokens_append_end hboth hend, headers_append_relocated hu ha hlast, htokens',
    ofTokens_append_end hus heof']

/-- If `a` has all its strings and paths closed, no page or function at the top and no `import` at the
end, and `b` starts with a statement, then `a`, a newline and `b` are read as `a` and then `b`: the
document is that of `a` and behind it that of `b`, moved on by the bytes and down by the lines of
`a`; and where `b` cannot be read, the error is that of `b`, moved in the same way. -/
theorem parse_append_newline {a b : String} {d : Document} (ha : parse a = .ok d)
    (hclosed : ∀ t ∈ tokenize a, t.IsClosed a)
    (hflat : ∀ n ∈ d.nodes, n.isPage = false ∧ n.isFunction = false)
    (hlast : ∀ t ∈ (tokenize a).dropLast.getLast?, t.isKeyword "import" = false)
    (hfirst : ∃ t ∈ (tokenize b).head?, startsStatement t = true) :
    parse (a ++ "\n" ++ b) =
      match parse b with
      | .ok e => .ok ⟨d.nodes ++ (Relocation.below a).nodes e.nodes⟩
      | .error e => .error ((Relocation.below a).error e) := by
  obtain ⟨hs, hscan, rfl⟩ := parse_eq_ok_iff.1 ha
  have hjoined := ofTokens_append_newline hscan hclosed hlast hfirst
  rw [parse, ofTokens_eq, parse, ofTokens_eq, hjoined]
  cases Scan.ofTokens (tokenize b) with
  | error e => rfl
  | ok later =>
      have hnodes : (Outline.nest (hs ++ later.map (Relocation.below a).header)).nodes =
          (Outline.nest hs).nodes ++ (Relocation.below a).nodes (Outline.nest later).nodes := by
        rw [Outline.nodes_nest_append hflat, ← Relocation.outline_nest, Relocation.nodes_outline]
      exact congrArg (fun nodes => Except.ok (Document.mk nodes)) hnodes

/-- A string over two lines and a list of attributes with nothing in it; behind them a source that is
read, and one that is not. -/
theorem parse_append_newline_open_list :
    parse ("add title \"é\n\" with" ++ "\n" ++ "function f") =
        .ok ⟨[.title "é\n" ⟨0, 20⟩, .function "f" [] ⟨21, 31⟩]⟩ ∧
      parse ("add title \"é\n\" with" ++ "\n" ++ "add [x]") =
        .error ⟨.kind .word .path, 3, 5, ⟨25, 28⟩⟩ := by
  have htokens : tokenize "add title \"é\n\" with" =
      [⟨.keyword, "add", 1, 1, ⟨0, 3⟩⟩, ⟨.keyword, "title", 1, 5, ⟨4, 9⟩⟩,
        ⟨.string, "é\n", 1, 11, ⟨10, 15⟩⟩, ⟨.keyword, "with", 2, 3, ⟨16, 20⟩⟩,
        ⟨.endOfInput, "", 2, 7, .empty 20⟩] := by
    decide +kernel
  have hfunction : tokenize "function f" =
      [⟨.keyword, "function", 1, 1, ⟨0, 8⟩⟩, ⟨.identifier, "f", 1, 10, ⟨9, 10⟩⟩,
        ⟨.endOfInput, "", 1, 11, .empty 10⟩] := by
    decide +kernel
  have hadd : tokenize "add [x]" =
      [⟨.keyword, "add", 1, 1, ⟨0, 3⟩⟩, ⟨.path, "x", 1, 5, ⟨4, 7⟩⟩,
        ⟨.endOfInput, "", 1, 8, .empty 7⟩] := by
    decide +kernel
  have hparse : parse "add title \"é\n\" with" =
      .ok ⟨[.title "é\n" ⟨0, 20⟩]⟩ := by
    rw [parse, ofTokens_eq, htokens]
    rfl
  have hclosed : ∀ t ∈ tokenize "add title \"é\n\" with", t.IsClosed "add title \"é\n\" with" := by
    rw [htokens]
    refine List.forall_mem_cons.2 ⟨trivial, List.forall_mem_cons.2 ⟨trivial,
      List.forall_mem_cons.2 ⟨?_, List.forall_mem_cons.2 ⟨trivial,
        List.forall_mem_singleton.2 trivial⟩⟩⟩⟩
    exact ⟨"add title ", "é\n", " with", ⟨by decide, by decide, by decide⟩,
      _, .plain (by decide) (.plain (by decide) .nil)⟩
  have hlast : ∀ t ∈ (tokenize "add title \"é\n\" with").dropLast.getLast?,
      t.isKeyword "import" = false := by
    rw [htokens]
    rintro _ ⟨⟩
    rfl
  have hflat : ∀ n ∈ [Node.title "é\n" ⟨0, 20⟩],
      n.isPage = false ∧ n.isFunction = false :=
    List.forall_mem_singleton.2 ⟨rfl, rfl⟩
  constructor
  · rw [parse_append_newline hparse hclosed hflat hlast ⟨_, by rw [hfunction]; rfl, rfl⟩, parse,
      ofTokens_eq, hfunction]
    rfl
  · rw [parse_append_newline hparse hclosed hflat hlast ⟨_, by rw [hadd]; rfl, rfl⟩, parse,
      ofTokens_eq, hadd]
    rfl

end Document

end EnglishPages
