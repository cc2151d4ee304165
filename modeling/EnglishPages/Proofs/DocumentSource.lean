import EnglishPages.Proofs.DocumentShape
import EnglishPages.Proofs.Spelling

/-!
Every document of the right shape has a source. Its statements are written in the order in which
they stand, one on a line, each with an empty string behind it: a string ends every phrase and
starts none, so no statement reaches into the next. What holds what is not written down, because
nesting the headers of a shaped document gives the document back.
-/

namespace EnglishPages

open Token

def Spelling.attributes : List String → List Spelling
  | [] => []
  | a :: as => ("with" :: a :: as.flatMap fun b => ["and", b]).map .word

theorem Spelling.mem_joined {word a : String} {as : List String}
    (h : word ∈ a :: as.flatMap fun b => ["and", b]) : word = "and" ∨ word ∈ a :: as := by
  simp only [List.mem_cons, List.mem_flatMap, List.not_mem_nil, or_false] at h
  obtain rfl | ⟨b, hb, rfl | rfl⟩ := h
  · exact .inr List.mem_cons_self
  · exact .inl rfl
  · exact .inr (List.mem_cons_of_mem a hb)

namespace Leaf

def keyword : Leaf → String
  | importing _ => "import"
  | title _ _ => "title"
  | script kind _ _ => kind.word
  | element _ => "add"

def phrase : Leaf → List Spelling
  | importing i =>
      i.type.toList.map .word ++ i.path.toList.flatMap fun path => [.word "from", .bracketed path]
  | title content _ => [.quoted content]
  | script _ attributes _ => Spelling.attributes attributes
  | element e => .word e.kind.word :: .quoted e.content :: Spelling.attributes e.attributes

/-- The type of an import and the kind of an element are words that a source can have. -/
def Lexable : Leaf → Prop
  | importing i => ∀ type ∈ i.type, isLowerWord type = true
  | title _ _ => True
  | script _ _ _ => True
  | element e => ∃ word, isLowerWord word = true ∧ e.kind = .ofWord word

end Leaf

namespace Header

def keyword : Header → String
  | page _ => "create"
  | function _ _ => "function"
  | leaf l => l.keyword

def phrase : Header → List Spelling
  | page _ => [.word "page"]
  | function name _ => [.word name]
  | leaf l => l.phrase

def spelled (h : Header) : List Spelling :=
  .word h.keyword :: (h.phrase ++ [.quoted ""])

def source (h : Header) : String :=
  String.ofList (Text.joined ' ' (h.spelled.map Spelling.chars))

end Header

def Document.source (d : Document) : String :=
  Text.terminated ((Node.headersOf d.nodes).map Header.source)

theorem Leaf.Lexable.kind {e : Element} (he : (Leaf.element e).Lexable) :
    isLowerWord e.kind.word = true ∧ ElementKind.ofWord e.kind.word = e.kind := by
  obtain ⟨text, htext, hkind⟩ := he
  have hword : e.kind.word = text := by
    rw [hkind, Scan.word_ofWord, toLower_of_isLowerWord htext]
  exact ⟨hword ▸ htext, hword ▸ hkind.symm⟩

namespace Scan

open Spelling

def separator : Token := (quoted "").token

variable (eof : Token) (rest : List Token)

theorem isKeyword_word {keyword : String} (h : isReserved keyword = true) (text : String) :
    (word text).token.isKeyword keyword = (text == keyword) := by
  by_cases htext : text = keyword
  · subst htext
    simp [token, isKeyword, h]
  · rw [beq_eq_false_iff_ne.2 htext]
    exact Bool.and_eq_false_iff.2 (.inr (beq_eq_false_iff_ne.2 htext))

theorem isWord_word (text : String) : (word text).token.isWord = true := by
  cases h : isReserved text <;> simp [token, isWord, h]

theorem extent_token (s : Spelling) (ss : List Spelling) :
    extent s.token (ss.map token) = .empty 0 := by
  have hall : (ss.map token).map Token.unplaced = ss.map token := by
    rw [List.map_map]
    exact List.map_congr_left fun s _ => s.unplaced_token
  rw [← s.unplaced_token, ← hall, extent_unplaced]

theorem isAttribute_word {text : String} (h : text ∉ Cursor.statementWords) :
    Scan.isAttribute (word text).token = true := by
  have hvalue : (word text).token.value = text := rfl
  simp [Scan.isAttribute, isWord_word, hvalue, h]

theorem withPhrase_attributes {as : List String} (has : ∀ a ∈ as, Node.IsAttribute a) :
    withPhrase ((Spelling.attributes as).map token ++ separator :: rest) =
      (Spelling.attributes as).map token := by
  cases as with
  | nil => rfl
  | cons a as =>
      have hwith : (word "with").token.isKeyword "with" = true := by decide
      have hstop : ¬ Scan.isAttribute separator = true := by decide
      have hwords : ∀ t ∈ ((a :: as.flatMap fun b => ["and", b]).map word).map token,
          Scan.isAttribute t = true := by
        simp only [List.map_map, List.mem_map]
        rintro _ ⟨text, htext, rfl⟩
        refine isAttribute_word ?_
        obtain rfl | hmem := mem_joined htext
        · decide
        · exact fun hword => (has text hmem).2 (List.mem_cons_of_mem "and" hword)
      rw [Spelling.attributes, List.map_cons, List.map_cons, List.cons_append, withPhrase,
        if_pos hwith, List.takeWhile_append_of_pos hwords, List.takeWhile_cons_of_neg hstop,
        List.append_nil]

theorem filter_joined {as : List String} (has : ∀ a ∈ as, a ≠ "and") :
    (as.flatMap fun a => ["and", a]).filter (· ≠ "and") = as := by
  induction as with
  | nil => rfl
  | cons a as ih =>
      obtain ⟨ha, has⟩ := List.forall_mem_cons.1 has
      simpa [ha] using ih has

theorem attributeWords_attributes {as : List String} (has : ∀ a ∈ as, Node.IsAttribute a) :
    attributeWords ((Spelling.attributes as).map token) = as := by
  have hne : ∀ a ∈ as, a ≠ "and" := fun a ha hand => (has a ha).2 (hand ▸ List.mem_cons_self)
  cases as with
  | nil => rfl
  | cons a as =>
      obtain ⟨ha, has⟩ := List.forall_mem_cons.1 hne
      have hvalues : (((a :: as.flatMap fun b => ["and", b]).map word).map token).map Token.value =
          a :: as.flatMap fun b => ["and", b] := by
        rw [List.map_map, List.map_map]
        exact List.map_id _
      rw [attributeWords, Spelling.attributes, List.map_cons, List.map_cons, List.tail_cons,
        hvalues, List.filter_cons_of_pos (by simpa using ha), filter_joined has]

theorem isFrom_word {type : String} (hfrom : type ≠ "from") (hform : type ≠ "form") :
    Cursor.isFrom (word type).token = false := by
  have hfromKeyword : (word type).token.isKeyword "from" = (type == "from") :=
    isKeyword_word (by decide) type
  have hformKeyword : (word type).token.isKeyword "form" = (type == "form") :=
    isKeyword_word (by decide) type
  simp [Cursor.isFrom, hfromKeyword, hformKeyword, hfrom, hform]

theorem importPhrase_path (path : Option String) :
    importPhrase ((path.toList.flatMap fun path => [word "from", bracketed path]).map token ++
        separator :: rest) =
      ⟨[], path.toList.map fun _ => (word "from").token,
        path.toList.map fun path => (bracketed path).token⟩ := by
  cases path with
  | none => rfl
  | some path =>
      have hfrom : Cursor.isFrom (word "from").token = true := by decide
      have hpath : hasKind .path (bracketed path).token = true := rfl
      have hextension : isExtension separator = false := rfl
      simp [importPhrase, pathPhrase, leading_cons, hfrom, hpath, hextension]

theorem importPhrase_type {type : String} (hfrom : type ≠ "from") (hform : type ≠ "form")
    {ts : List Token} (hts : (importPhrase ts).type = []) :
    importPhrase ((word type).token :: ts) =
      { importPhrase ts with type := [(word type).token] } := by
  have htype : leading (fun t => t.isWord && !Cursor.isFrom t) ts = [] := hts
  simp [importPhrase, leading_cons, isWord_word, isFrom_word hfrom hform, htype]

theorem importing_phrase {i : Import} (hi : (Node.importing i).WellFormed) :
    importing (word "import").token ((Leaf.importing i).phrase.map token ++ separator :: rest) =
      (some (.leaf (.importing { i with span := .empty 0 })),
        (Leaf.importing i).phrase.map token) := by
  obtain ⟨type, path, compiled, span⟩ := i
  obtain ⟨rfl, hfrom, hform, -⟩ := hi
  have hpath := importPhrase_path rest path
  have hphrase : importPhrase ((Leaf.importing ⟨type, path, none, span⟩).phrase.map token ++
        separator :: rest) =
      ⟨type.toList.map fun type => (word type).token, path.toList.map fun _ => (word "from").token,
        path.toList.map fun path => (bracketed path).token⟩ := by
    cases type with
    | none => exact hpath
    | some type =>
        have htype := importPhrase_type (fun h => hfrom (congrArg some h))
          (fun h => hform (congrArg some h)) (congrArg ImportPhrase.type hpath)
        exact htype.trans (congrArg (fun p => { p with type := [(word type).token] }) hpath)
  rw [importing, hphrase]
  cases type <;> cases path <;> rfl

theorem header_script (kind : ScriptKind) (ts : List Token) :
    header eof (word kind.word).token ts = .ok (script kind (word kind.word).token ts) := by
  cases kind <;> rfl

theorem add_phrase {e : Element} (he : (Node.element e).WellFormed)
    (hkind : (Leaf.element e).Lexable) :
    add eof (word "add").token ((Leaf.element e).phrase.map token ++ separator :: rest) =
      .ok (some (.leaf (.element { e with span := .empty 0 })),
        (Leaf.element e).phrase.map token) := by
  obtain ⟨htitle, htite, hattributes⟩ := he
  have hextent := extent_token (word "add") (Leaf.element e).phrase
  have hcontent : leading (hasKind .string) ((quoted e.content).token ::
      ((Spelling.attributes e.attributes).map token ++ separator :: rest)) =
        [(quoted e.content).token] := rfl
  have hword : ¬ ((word e.kind.word).token.value = "title" ∨
      (word e.kind.word).token.value = "tite") := not_or.2 ⟨htitle, htite⟩
  change add eof _ ((word e.kind.word).token :: (quoted e.content).token ::
    ((Spelling.attributes e.attributes).map token ++ separator :: rest)) = _
  rw [add, if_pos (isWord_word _)]
  simp only [hcontent, List.length_singleton, List.drop_one, List.tail_cons,
    withPhrase_attributes rest hattributes, attributeWords_attributes hattributes, if_neg hword]
  have hvalue : ElementKind.ofWord (word e.kind.word).token.value = e.kind := hkind.kind.2
  rw [hvalue]
  exact congrArg (fun span => Except.ok (some (Header.leaf (.element { e with span })), _)) hextent

theorem header_phrase {h : Header} (hform : h.WellFormed) (hleaf : ∀ l, h = .leaf l → l.Lexable) :
    header eof (word h.keyword).token (h.phrase.map token ++ separator :: rest) =
      .ok (some h.unplaced, h.phrase.map token) := by
  cases h with
  | page span => rfl
  | function name span =>
      have hkeyword : (word "function").token.isKeyword "function" = true := by decide
      have hkind : hasKind .identifier (word name).token = true := by
        simp [hasKind, token, hform.2]
      have hextent := extent_token (word "function") [word name]
      change header eof (word "function").token ((word name).token :: separator :: rest) = _
      rw [header_of_function hkeyword, function, leading_cons, if_pos hkind]
      exact congrArg (fun span => Except.ok (some (Header.function name span), _)) hextent
  | leaf l =>
      cases l with
      | importing i => exact congrArg Except.ok (importing_phrase rest hform)
      | title content span => rfl
      | script kind attributes span =>
          have hextent := extent_token (word kind.word) (Spelling.attributes attributes)
          change header eof (word kind.word).token
            ((Spelling.attributes attributes).map token ++ separator :: rest) = _
          rw [header_script, script, withPhrase_attributes rest hform,
            attributeWords_attributes hform, hextent]
          rfl
      | element e => exact add_phrase eof rest hform (hleaf _ rfl)

theorem headers_separator (ts : List Token) : headers eof (separator :: ts) = headers eof ts := by
  rw [headers_cons]
  change (headers eof ts).map ([] ++ ·) = headers eof ts
  cases headers eof ts <;> rfl

theorem headers_spelled {hs : List Header} (hform : ∀ h ∈ hs, h.WellFormed)
    (hleaf : ∀ l, .leaf l ∈ hs → l.Lexable) :
    headers eof (hs.flatMap fun h => h.spelled.map token) = .ok (hs.map Header.unplaced) := by
  induction hs with
  | nil => rfl
  | cons h hs ih =>
      obtain ⟨hh, hhs⟩ := List.forall_mem_cons.1 hform
      have ih := ih hhs fun l hl => hleaf l (List.mem_cons_of_mem h hl)
      have hread := header_phrase eof (hs.flatMap fun h => h.spelled.map token) hh
        fun l hl => hleaf l (hl ▸ List.mem_cons_self)
      have hline : (h :: hs).flatMap (fun h => h.spelled.map token) = (word h.keyword).token ::
          (h.phrase.map token ++ separator :: hs.flatMap fun h => h.spelled.map token) := by
        simp [Header.spelled, separator]
      rw [hline, headers_cons, hread]
      change (headers eof (List.drop _ _)).map _ = _
      rw [List.drop_left, headers_separator, ih]
      rfl

end Scan

theorem Spelling.lexable_of_isReserved {text : String} (h : isReserved text = true) :
    (Spelling.word text).Lexable := by
  have hall : reservedWords.all isLowerWord = true := by decide
  exact List.all_eq_true.1 hall text (List.contains_iff_mem.1 h)

theorem Spelling.lexable_attributes {as : List String} (has : ∀ a ∈ as, Node.IsAttribute a) :
    ∀ s ∈ Spelling.attributes as, s.Lexable := by
  cases as with
  | nil => exact fun _ hs => by cases hs
  | cons a as =>
      refine List.forall_mem_cons.2 ⟨lexable_of_isReserved (by decide), fun s hs => ?_⟩
      obtain ⟨text, htext, rfl⟩ := List.mem_map.1 hs
      obtain rfl | hmem := mem_joined htext
      · exact lexable_of_isReserved (by decide)
      · exact (has text hmem).1

namespace Header

theorem isReserved_keyword (h : Header) : isReserved h.keyword = true := by
  cases h with
  | page span => rfl
  | function name span => rfl
  | leaf l =>
      cases l with
      | importing i => rfl
      | title content span => rfl
      | script kind attributes span => cases kind <;> rfl
      | element e => rfl

theorem lexable_phrase {h : Header} (hform : h.WellFormed)
    (hleaf : ∀ l, h = .leaf l → l.Lexable) : ∀ s ∈ h.phrase, s.Lexable := by
  cases h with
  | page span =>
      intro s hs
      obtain rfl := List.mem_singleton.1 hs
      exact Spelling.lexable_of_isReserved (by decide)
  | function name span =>
      intro s hs
      obtain rfl := List.mem_singleton.1 hs
      exact hform.1
  | leaf l =>
      have hl := hleaf l rfl
      cases l with
      | importing i =>
          intro s hs
          rcases List.mem_append.1 hs with hs | hs
          · obtain ⟨type, htype, rfl⟩ := List.mem_map.1 hs
            exact hl type (Option.mem_toList.1 htype)
          · obtain ⟨path, hpath, hs⟩ := List.mem_flatMap.1 hs
            simp only [List.mem_cons, List.not_mem_nil, or_false] at hs
            obtain rfl | rfl := hs
            · exact Spelling.lexable_of_isReserved (by decide)
            · exact hform.2.2.2 path (Option.mem_toList.1 hpath)
      | title content span =>
          intro s hs
          obtain rfl := List.mem_singleton.1 hs
          trivial
      | script kind attributes span => exact Spelling.lexable_attributes hform
      | element e =>
          refine List.forall_mem_cons.2 ⟨hl.kind.1, List.forall_mem_cons.2 ⟨trivial, ?_⟩⟩
          exact Spelling.lexable_attributes hform.2.2

theorem lexable_spelled {h : Header} (hform : h.WellFormed)
    (hleaf : ∀ l, h = .leaf l → l.Lexable) : ∀ s ∈ h.spelled, s.Lexable := by
  have hkeyword := Spelling.lexable_of_isReserved h.isReserved_keyword
  refine List.forall_mem_cons.2 ⟨hkeyword, List.forall_mem_append.2 ⟨?_, ?_⟩⟩
  · exact lexable_phrase hform hleaf
  · exact List.forall_mem_singleton.2 trivial

theorem unplacedTokens_source {hs : List Header} (hform : ∀ h ∈ hs, h.WellFormed)
    (hleaf : ∀ l, .leaf l ∈ hs → l.Lexable) :
    unplacedTokens (Text.terminated (hs.map source)).toList =
      (hs.flatMap fun h => h.spelled.map Spelling.token) ++
        [⟨.endOfInput, "", 0, 0, .empty 0⟩] := by
  induction hs with
  | nil => rfl
  | cons h hs ih =>
      obtain ⟨hh, hhs⟩ := List.forall_mem_cons.1 hform
      have hspelled := lexable_spelled hh fun l hl => hleaf l (hl ▸ List.mem_cons_self)
      rw [List.map_cons, Text.terminated_cons, source, String.toList_ofList,
        unplacedTokens_joined _ hspelled, ih hhs fun l hl => hleaf l (List.mem_cons_of_mem h hl),
        List.flatMap_cons, List.append_assoc]

end Header

def Outline.ofNodes (ns : List Node) : Outline :=
  ⟨ns.takeWhile (!·.isFunction), ns.dropWhile (!·.isFunction)⟩

theorem Outline.nodes_ofNodes (ns : List Node) : (ofNodes ns).nodes = ns :=
  List.takeWhile_append_dropWhile

theorem Outline.ofNodes_append {ns ms : List Node} (hns : ∀ n ∈ ns, n.isFunction = false)
    (hms : ∀ m ∈ ms, m.isFunction = true) : ofNodes (ns ++ ms) = ⟨ns, ms⟩ := by
  have hno : ∀ n ∈ ns, (!n.isFunction) = true := fun n hn => by simp [hns n hn]
  rw [ofNodes, List.takeWhile_append_of_pos hno, List.dropWhile_append_of_pos hno]
  cases ms with
  | nil => simp
  | cons m ms => simp [hms m List.mem_cons_self]

namespace Node

variable {ns : List Node}

theorem Shaped.children {n : Node} (h : Shaped (n :: ns)) : Shaped n.children := fun siblings hl =>
  h siblings (.inside List.mem_cons_self hl)

theorem Shaped.tail {n : Node} (h : Shaped (n :: ns)) : Shaped ns :=
  h.sublist (List.sublist_cons_self n ns)

/-- The statements in a function and those after it can stand as siblings: the function is their
only boundary. -/
theorem Shaped.without_function {name : String} {children : List Node} {span : Span}
    (h : Shaped (.function name children span :: ns)) :
    Shaped (children ++ ns) ∧ (∀ n ∈ children, n.isFunction = false) ∧
      ∀ n ∈ ns, n.isFunction = true := by
  have htop := h _ (.top _)
  obtain ⟨hfirst, hordered⟩ := List.pairwise_cons.1 htop.ordered
  have hchildren : ∀ n ∈ children, n.isFunction = false :=
    (htop.wellFormed _ List.mem_cons_self).2
  have hfunctions : ∀ n ∈ ns, n.isFunction = true := fun n hn => (hfirst n hn).isFunction rfl
  refine ⟨fun siblings hlevel => ?_, hchildren, hfunctions⟩
  cases hlevel with
  | top =>
      have hinside := h.children _ (.top children)
      refine ⟨List.pairwise_append.2 ⟨hinside.ordered, hordered, fun a ha b hb => ?_⟩, ?_⟩
      · have hno : ¬ a.isFunction = true := by simp [hchildren a ha]
        exact ⟨(hfirst b hb).pageless rfl (hfunctions b hb) a ha, fun hf => absurd hf hno,
          fun hf => absurd hf hno⟩
      · exact List.forall_mem_append.2 ⟨hinside.wellFormed, (h.tail _ (.top ns)).wellFormed⟩
  | inside hn hlevel =>
      rcases List.mem_append.1 hn with hn | hn
      · exact h.children siblings (.inside hn hlevel)
      · exact h.tail siblings (.inside hn hlevel)

theorem Shaped.uncons_leaf (l : Leaf) (h : Shaped (l.node :: ns)) :
    ∃ header rest, header.WellFormed ∧ Shaped rest ∧
      headersOf (l.node :: ns) = header :: headersOf rest ∧
      Outline.ofNodes (l.node :: ns) = (Outline.ofNodes rest).prepend header := by
  refine ⟨.leaf l, ns, (h _ (.top _)).wellFormed _ List.mem_cons_self, h.tail, ?_, ?_⟩
  · rw [headersOf, headers_leaf]
    rfl
  · simp [Outline.ofNodes, Outline.prepend, l.isFunction_node]

theorem Shaped.uncons {n : Node} (h : Shaped (n :: ns)) :
    ∃ header rest, header.WellFormed ∧ Shaped rest ∧
      headersOf (n :: ns) = header :: headersOf rest ∧
      Outline.ofNodes (n :: ns) = (Outline.ofNodes rest).prepend header := by
  cases n with
  | page children span =>
      have hlast : ns = [] := by
        refine List.eq_nil_iff_forall_not_mem.2 fun m hm => ?_
        have hpage := ((List.pairwise_cons.1 (h _ (.top _)).ordered).1 m hm).isPage
        cases hpage
      subst hlast
      refine ⟨.page span, children, trivial, h.children, ?_, ?_⟩
      · simp only [headersOf, headers, List.append_nil]
      · rw [Outline.prepend, Outline.nodes_ofNodes]
        rfl
  | function name children span =>
      obtain ⟨hrest, hchildren, hfunctions⟩ := h.without_function
      refine ⟨.function name span, children ++ ns,
        ((h _ (.top _)).wellFormed _ List.mem_cons_self).1, hrest, ?_, ?_⟩
      · rw [headersOf, headers, List.cons_append, headersOf_append]
      · rw [Outline.ofNodes_append hchildren hfunctions, Outline.prepend]
        rfl
  | importing i => exact h.uncons_leaf (.importing i)
  | title content span => exact h.uncons_leaf (.title content span)
  | script kind attributes span => exact h.uncons_leaf (.script kind attributes span)
  | element e => exact h.uncons_leaf (.element e)

theorem Shaped.nest_headersOf {hs : List Header} (h : Shaped ns) (hhs : headersOf ns = hs) :
    (∀ header ∈ hs, header.WellFormed) ∧ Outline.nest hs = Outline.ofNodes ns := by
  induction hs generalizing ns with
  | nil =>
      cases ns with
      | nil => exact ⟨by simp, rfl⟩
      | cons n ns =>
          obtain ⟨first, rest, -, -, hheaders, -⟩ := h.uncons
          cases hheaders.symm.trans hhs
  | cons header hs ih =>
      cases ns with
      | nil => cases hhs
      | cons n ns =>
          obtain ⟨first, rest, hfirst, hrest, hheaders, hprepend⟩ := h.uncons
          obtain ⟨rfl, htail⟩ := List.cons.inj (hheaders.symm.trans hhs)
          obtain ⟨hwell, hnest⟩ := ih hrest htail
          refine ⟨List.forall_mem_cons.2 ⟨hfirst, hwell⟩, ?_⟩
          rw [Outline.nest_cons, hnest, hprepend]

end Node

namespace Document

open Scan

theorem takeWhile_tokenize_source {d : Document}
    (hform : ∀ h ∈ Node.headersOf d.nodes, h.WellFormed)
    (hleaf : ∀ l, .leaf l ∈ Node.headersOf d.nodes → l.Lexable) :
    ((tokenize d.source).takeWhile (!·.isEnd)).map Token.unplaced =
      (Node.headersOf d.nodes).flatMap fun h => h.spelled.map Spelling.token := by
  have htokens : (tokenize d.source).map Token.unplaced = _ :=
    Header.unplacedTokens_source hform hleaf
  have hcomp : (fun t : Token => !t.isEnd) ∘ Token.unplaced = fun t => !t.isEnd := rfl
  rw [← hcomp, ← List.takeWhile_map, htokens, List.takeWhile_append_of_pos]
  · simp [isEnd]
  · intro t ht
    obtain ⟨h, -, ht⟩ := List.mem_flatMap.1 ht
    obtain ⟨s, -, rfl⟩ := List.mem_map.1 ht
    simp [s.isEnd_token]

/-- Every document of the shape that parsing gives, with words that a source can have, is the parse
of its own source up to the places of the statements. -/
theorem parse_source {d : Document} (hshape : Node.Shaped d.nodes)
    (hleaf : ∀ l, .leaf l ∈ Node.headersOf d.nodes → l.Lexable) :
    ∃ d', parse d.source = .ok d' ∧ d'.unplaced = d.unplaced := by
  obtain ⟨hform, hnest⟩ := hshape.nest_headersOf rfl
  have hread := headers_unplaced (endToken (tokenize d.source))
    ((tokenize d.source).takeWhile (!·.isEnd))
  rw [takeWhile_tokenize_source hform hleaf, headers_spelled _ hform hleaf,
    ← Scan.ofTokens] at hread
  cases hscan : Scan.ofTokens (tokenize d.source) with
  | error e =>
      rw [hscan] at hread
      cases hread
  | ok hs =>
      rw [hscan] at hread
      have hunplaced := Except.ok.inj hread
      refine ⟨_, parse_eq_ok_iff.2 ⟨hs, hscan, rfl⟩, congrArg Document.mk ?_⟩
      rw [← Outline.nodes_unplaced, Outline.unplaced_nest, ← hunplaced, ← Outline.unplaced_nest,
        hnest, Outline.nodes_unplaced, Outline.nodes_ofNodes]

def nestedPage : Document :=
  ⟨[.importing ⟨none, none, none, .empty 0⟩,
    .importing ⟨some "add", some "a b", none, .empty 0⟩,
    .function "f" [.script .cstyle ["with"] (.empty 0)] (.empty 0),
    .function "g" [.page [.element ⟨.other "blink", "\"\\n", ["page", "title"], .empty 0⟩,
      .function "h" [] (.empty 0)] (.empty 0)] (.empty 0)]⟩

theorem parse_source_nestedPage :
    nestedPage.source = "import \"\"\nimport add from [a b] \"\"\nfunction f \"\"\n" ++
        "cstyle with with \"\"\nfunction g \"\"\ncreate page \"\"\n" ++
        "add blink \"\\\"\\\\n\" with page and title \"\"\nfunction h \"\"\n" ∧
      ∃ d, parse nestedPage.source = .ok d ∧ d.unplaced = nestedPage.unplaced := by
  have hheaders : Node.headersOf nestedPage.nodes =
      [.leaf (.importing ⟨none, none, none, .empty 0⟩),
        .leaf (.importing ⟨some "add", some "a b", none, .empty 0⟩), .function "f" (.empty 0),
        .leaf (.script .cstyle ["with"] (.empty 0)), .function "g" (.empty 0), .page (.empty 0),
        .leaf (.element ⟨.other "blink", "\"\\n", ["page", "title"], .empty 0⟩),
        .function "h" (.empty 0)] := rfl
  have hform : ∀ h ∈ Node.headersOf nestedPage.nodes, h.WellFormed := by
    have hpath : IsPathText "a b" := ⟨by decide, by decide⟩
    have hf : Node.IsFunctionName "f" := ⟨by decide, by decide⟩
    have hg : Node.IsFunctionName "g" := ⟨by decide, by decide⟩
    have hh : Node.IsFunctionName "h" := ⟨by decide, by decide⟩
    have hwith : Node.IsAttribute "with" := ⟨by decide, by decide⟩
    have hpage : Node.IsAttribute "page" := ⟨by decide, by decide⟩
    have htitle : Node.IsAttribute "title" := ⟨by decide, by decide⟩
    rw [hheaders]
    simp [Header.WellFormed, Leaf.node, Node.WellFormed, ElementKind.word, hpath, hf, hg, hh,
      hwith, hpage, htitle]
  have hshape : Node.Shaped nestedPage.nodes := (Outline.shaped_nest hform).nodes
  refine ⟨by decide +kernel, parse_source hshape fun l hl => ?_⟩
  have hadd : isLowerWord "add" = true := by decide
  simp only [hheaders, List.mem_cons, Header.leaf.injEq, reduceCtorEq, false_or, or_false,
    List.not_mem_nil] at hl
  obtain rfl | rfl | rfl | rfl := hl
  · simp [Leaf.Lexable]
  · simp [Leaf.Lexable, hadd]
  · trivial
  · exact ⟨"blink", by decide, by decide +kernel⟩

end Document

end EnglishPages
