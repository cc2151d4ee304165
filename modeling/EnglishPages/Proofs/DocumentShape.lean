import EnglishPages.Proofs.ParserScan
import EnglishPages.Proofs.TokenForms

/-!
The shape of the documents that sources have. At every depth of the tree the siblings are leaves
and then either one page or functions, a function holds no function, and the words and paths of a
statement have the forms that the tokens of a source have.

The scan reads headers of the right forms from such tokens, and nesting them builds one level after
another from the back: each header is put before levels that have the shape already.
-/

namespace EnglishPages

open Token

namespace Node

def isPage : Node → Bool
  | page _ _ => true
  | _ => false

def isFunction : Node → Bool
  | function _ _ _ => true
  | _ => false

def children : Node → List Node
  | page children _ => children
  | function _ children _ => children
  | _ => []

def attributeStops : List String := ["and", "create", "add", "function", "import"]

def IsAttribute (word : String) : Prop :=
  isLowerWord word = true ∧ word ∉ attributeStops

def IsFunctionName (name : String) : Prop :=
  isLowerWord name = true ∧ isReserved name = false

def WellFormed : Node → Prop
  | page _ _ => True
  | function name children _ => IsFunctionName name ∧ ∀ n ∈ children, n.isFunction = false
  | importing i =>
      i.compiled = none ∧ i.type ≠ some "from" ∧ i.type ≠ some "form" ∧
        ∀ path ∈ i.path, IsPathText path
  | title _ _ => True
  | script _ attributes _ => ∀ word ∈ attributes, IsAttribute word
  | element e =>
      e.kind.word ≠ "title" ∧ e.kind.word ≠ "tite" ∧ ∀ word ∈ e.attributes, IsAttribute word

/-- What holds of a statement and one that stands after it among its siblings: the first is no
page, after a function there are only functions, and of these only the last can hold a page. -/
structure Precedes (a b : Node) : Prop where
  isPage : a.isPage = false
  isFunction : a.isFunction = true → b.isFunction = true
  pageless : a.isFunction = true → b.isFunction = true → ∀ n ∈ a.children, n.isPage = false

/-- The lists of siblings in a forest, at any depth. -/
inductive Level : List Node → List Node → Prop
  | top (ns : List Node) : Level ns ns
  | inside {ns siblings : List Node} {n : Node} (hn : n ∈ ns) (h : Level n.children siblings) :
      Level ns siblings

structure IsSiblings (ns : List Node) : Prop where
  ordered : ns.Pairwise Precedes
  wellFormed : ∀ n ∈ ns, n.WellFormed

def Shaped (ns : List Node) : Prop :=
  ∀ siblings, Level ns siblings → IsSiblings siblings

end Node

namespace Header

def WellFormed : Header → Prop
  | page _ => True
  | function name _ => Node.IsFunctionName name
  | leaf l => l.node.WellFormed

end Header

namespace Scan

def Lexed (ts : List Token) : Prop :=
  ∀ t ∈ ts, HasForm t.kind t.value

variable {eof t : Token} {ts : List Token}

theorem Lexed.drop (h : Lexed ts) (n : Nat) : Lexed (ts.drop n) := fun t ht =>
  h t (List.mem_of_mem_drop ht)

theorem isLowerWord_of_isWord (hform : HasForm t.kind t.value) (ht : t.isWord = true) :
    isLowerWord t.value = true := by
  rcases Bool.or_eq_true_iff.1 ht with hkind | hkind
  · rw [eq_of_beq hkind] at hform
    exact hform.1
  · rw [eq_of_beq hkind] at hform
    exact hform.1

theorem mem_of_mem_leading {p : Token → Bool} (h : t ∈ leading p ts) : t ∈ ts ∧ p t = true := by
  obtain ⟨hmem, hp⟩ := List.mem_filter.1 h
  exact ⟨List.mem_of_mem_take hmem, hp⟩

theorem text?_eq_some {s : String} (h : text? ts = some s) : ∃ t ∈ ts, t.value = s := by
  obtain ⟨t, ht, hs⟩ := Option.map_eq_some_iff.1 h
  exact ⟨t, List.mem_of_head? ht, hs⟩

theorem mem_tail_withPhrase (h : t ∈ (withPhrase ts).tail) : t ∈ ts ∧ isAttribute t = true := by
  cases ts with
  | nil => simp [withPhrase] at h
  | cons u ts =>
      rw [withPhrase] at h
      split at h
      · rw [List.tail_cons] at h
        exact ⟨List.mem_cons_of_mem u ((List.takeWhile_subset isAttribute) h),
          List.all_eq_true.1 List.all_takeWhile t h⟩
      · simp at h

theorem isAttribute_of_mem (hts : Lexed ts) {word : String}
    (h : word ∈ attributeWords (withPhrase ts)) : Node.IsAttribute word := by
  obtain ⟨hmem, hand⟩ := List.mem_filter.1 h
  obtain ⟨t, ht, rfl⟩ := List.mem_map.1 hmem
  obtain ⟨htts, hattribute⟩ := mem_tail_withPhrase ht
  obtain ⟨hword, hstop⟩ := Bool.and_eq_true_iff.1 hattribute
  refine ⟨isLowerWord_of_isWord (hts t htts) hword, ?_⟩
  have hstop : t.value ∉ Cursor.statementWords := by simpa using hstop
  exact List.not_mem_cons_of_ne_of_not_mem (by simpa using hand) hstop

theorem isFunctionName_function (hts : Lexed ts) :
    Node.IsFunctionName ((text? (leading (hasKind .identifier) ts)).getD Parser.anonymous) := by
  cases hname : text? (leading (hasKind .identifier) ts) with
  | none =>
      rw [Option.getD_none]
      exact ⟨by decide, by decide⟩
  | some name =>
      obtain ⟨t, ht, rfl⟩ := text?_eq_some hname
      obtain ⟨htts, hkind⟩ := mem_of_mem_leading ht
      have hform := hts t htts
      rw [eq_of_beq hkind] at hform
      exact hform

theorem kind_of_isReserved (hform : HasForm t.kind t.value) (hword : t.isWord = true)
    (hreserved : isReserved t.value = true) : t.kind = .keyword := by
  rcases Bool.or_eq_true_iff.1 hword with hkind | hkind
  · exact eq_of_beq hkind
  · rw [eq_of_beq hkind] at hform
    rw [hform.2] at hreserved
    cases hreserved

theorem type_not_from (hts : Lexed ts) {type : String}
    (h : text? (importPhrase ts).type = some type) : type ≠ "from" ∧ type ≠ "form" := by
  obtain ⟨t, ht, rfl⟩ := text?_eq_some h
  obtain ⟨htts, hp⟩ := mem_of_mem_leading ht
  obtain ⟨hword, hfrom⟩ := Bool.and_eq_true_iff.1 hp
  have hno : ∀ word, isReserved word = true → t.isKeyword word = false → t.value ≠ word := by
    rintro _ hreserved hkeyword rfl
    have hkind := kind_of_isReserved (hts t htts) hword hreserved
    simp [isKeyword, hkind] at hkeyword
  have hfrom : t.isKeyword "from" = false ∧ t.isKeyword "form" = false := by
    simpa [Cursor.isFrom] using hfrom
  exact ⟨hno "from" (by decide) hfrom.1, hno "form" (by decide) hfrom.2⟩

theorem isPathText_extended {path extension : String} (hpath : IsPathText path)
    (hextension : extension ∈ Cursor.pathExtensions) :
    IsPathText (path ++ "." ++ extension) := by
  have hall : Cursor.pathExtensions.all (fun extension =>
      ("." ++ extension).toList.all fun c => !Text.isBlank c && c != ']') = true := by decide
  have hchars : ∀ c ∈ ("." ++ extension).toList, Text.isBlank c = false ∧ c ≠ ']' := by
    intro c hc
    simpa using List.all_eq_true.1 (List.all_eq_true.1 hall extension hextension) c hc
  have hpathTrimmed : Text.IsTrimmed path.toList := hpath.trim_eq ▸ Text.isTrimmed_trim path.toList
  have hextensionTrimmed : Text.IsTrimmed ("." ++ extension).toList :=
    .of_forall fun c hc => (hchars c hc).1
  rw [String.append_assoc]
  refine ⟨?_, ?_⟩
  · rw [String.toList_append]
    exact (hpathTrimmed.append hextensionTrimmed).trim_eq
  · rw [String.toList_append, List.mem_append, not_or]
    exact ⟨hpath.not_mem, fun hmem => (hchars ']' hmem).2 rfl⟩

theorem leading_eq (p : Token → Bool) (ts : List Token) :
    leading p ts = [] ∨ ∃ t ∈ ts, p t = true ∧ leading p ts = [t] := by
  cases ts with
  | nil => exact .inl rfl
  | cons t ts =>
      by_cases ht : p t = true
      · exact .inr ⟨t, List.mem_cons_self, ht, by simp [leading, ht]⟩
      · exact .inl (by simp [leading, ht])

theorem isPathText_path? (hts : Lexed ts) {path : String} (h : path? (pathPhrase ts) = some path) :
    IsPathText path := by
  rw [pathPhrase] at h
  rcases leading_eq (hasKind .path) ts with hlead | ⟨p, hp, hkind, hlead⟩
  · rw [hlead] at h
    cases h
  · have hpath : IsPathText p.value := by
      have hform := hts p hp
      rwa [eq_of_beq hkind] at hform
    rw [hlead] at h
    rcases leading_eq isExtension (ts.drop 1) with hnone | ⟨e, -, he, hone⟩
    · rw [hnone] at h
      cases h
      exact hpath
    · rw [hone] at h
      cases h
      have hextension : e.value ∈ Cursor.pathExtensions := by
        simpa using (Bool.and_eq_true_iff.1 he).2
      exact isPathText_extended hpath hextension

theorem word_ofWord (word : String) : (ElementKind.ofWord word).word = word.toLower := by
  simp only [ElementKind.ofWord]
  cases hfind : ElementKind.named.find? (·.word == word.toLower) with
  | none => rfl
  | some kind =>
      have hkind := List.find?_some hfind
      simpa using hkind

theorem wellFormed_importing (hts : Lexed ts) (span : Span) :
    let phrase := importPhrase ts
    (Node.importing ⟨text? phrase.type, path? phrase.path, none, span⟩).WellFormed :=
  ⟨rfl, fun h => (type_not_from hts h).1 rfl, fun h => (type_not_from hts h).2 rfl,
    fun _ hpath => isPathText_path? ((hts.drop _).drop _) hpath⟩

theorem wellFormed_add (hts : Lexed ts) {r : Option Header × List Token}
    (hread : add eof t ts = .ok r) : ∀ h ∈ r.1, h.WellFormed := by
  cases ts with
  | nil => cases hread
  | cons word ts =>
      rw [add] at hread
      split at hread
      · next hword =>
          have hrest : Lexed ts := fun t ht => hts t (List.mem_cons_of_mem word ht)
          have hlower := isLowerWord_of_isWord (hts word List.mem_cons_self) hword
          cases hread
          rintro _ ⟨⟩
          by_cases htitle : word.value = "title" ∨ word.value = "tite"
          · simp only [if_pos htitle]
            trivial
          · simp only [if_neg htitle]
            have hkind : (ElementKind.ofWord word.value).word = word.value :=
              (word_ofWord word.value).trans (toLower_of_isLowerWord hlower)
            refine ⟨?_, ?_, ?_⟩
            · rw [hkind]
              exact fun h => htitle (.inl h)
            · rw [hkind]
              exact fun h => htitle (.inr h)
            · exact fun _ hattribute => isAttribute_of_mem (hrest.drop _) hattribute
      · cases hread

theorem wellFormed_header (hts : Lexed ts) {r : Option Header × List Token}
    (hread : header eof t ts = .ok r) : ∀ h ∈ r.1, h.WellFormed := by
  cases starts_of_header hread with
  | nothing => rintro _ ⟨⟩
  | create =>
      rcases create_cases t ts with h | ⟨_, _, h⟩ <;> rw [h] <;> rintro _ ⟨⟩
      trivial
  | add hadd => exact wellFormed_add hts hadd
  | function =>
      rintro _ ⟨⟩
      exact isFunctionName_function hts
  | importing =>
      rintro _ ⟨⟩
      exact wellFormed_importing hts _
  | title =>
      rintro _ ⟨⟩
      trivial
  | script =>
      rintro _ ⟨⟩
      exact fun _ hattribute => isAttribute_of_mem hts hattribute

theorem wellFormed_headersFrom {skip : Nat} {hs : List Header} (hts : Lexed ts)
    (hread : headersFrom eof skip ts = .ok hs) : ∀ h ∈ hs, h.WellFormed := by
  induction ts generalizing skip hs with
  | nil =>
      cases skip <;> cases hread <;> simp
  | cons t ts ih =>
      have hrest : Lexed ts := fun u hu => hts u (List.mem_cons_of_mem t hu)
      cases skip with
      | succ skip => exact ih hrest hread
      | zero =>
          obtain ⟨r, later, hheader, hlater, rfl⟩ := headersFrom_zero_eq_ok hread
          intro h hmem
          rcases List.mem_append.1 hmem with hfirst | hmem
          · exact wellFormed_header hrest hheader h (Option.mem_toList.1 hfirst)
          · exact ih hrest hlater h hmem

end Scan

namespace Leaf

theorem isPage_node (l : Leaf) : l.node.isPage = false := by
  cases l <;> rfl

theorem isFunction_node (l : Leaf) : l.node.isFunction = false := by
  cases l <;> rfl

theorem children_node (l : Leaf) : l.node.children = [] := by
  cases l <;> rfl

end Leaf

namespace Node

theorem Level.of_subset {ns ms siblings : List Node} (hsub : ns ⊆ ms)
    (h : Level ns siblings) : siblings = ns ∨ Level ms siblings := by
  cases h with
  | top => exact .inl rfl
  | inside hn h => exact .inr (.inside (hsub hn) h)

theorem IsSiblings.sublist {ns ms : List Node} (h : IsSiblings ms) (hsub : ns.Sublist ms) :
    IsSiblings ns where
  ordered := h.ordered.sublist hsub
  wellFormed n hn := h.wellFormed n (hsub.subset hn)

theorem Shaped.sublist {ns ms : List Node} (h : Shaped ms) (hsub : ns.Sublist ms) : Shaped ns := by
  intro siblings hlevel
  rcases hlevel.of_subset hsub.subset with rfl | hlevel
  · exact (h ms (.top ms)).sublist hsub
  · exact h siblings hlevel

theorem shaped_nil : Shaped [] := by
  rintro siblings (_ | ⟨hn, -⟩)
  · exact ⟨.nil, by simp⟩
  · simp at hn

theorem Shaped.cons {n : Node} {ns : List Node} (h : Shaped ns) (hinside : Shaped n.children)
    (hn : n.WellFormed) (hprecedes : ∀ m ∈ ns, n.Precedes m) : Shaped (n :: ns) := by
  intro siblings hlevel
  have htop := h ns (.top ns)
  cases hlevel with
  | top =>
      exact ⟨List.pairwise_cons.2 ⟨hprecedes, htop.ordered⟩,
        List.forall_mem_cons.2 ⟨hn, htop.wellFormed⟩⟩
  | inside hm hlevel =>
      rcases List.mem_cons.1 hm with rfl | hm
      · exact hinside siblings hlevel
      · exact h siblings (.inside hm hlevel)

end Node

namespace Outline

structure Shaped (o : Outline) : Prop where
  body : ∀ n ∈ o.body, n.isFunction = false
  functions : ∀ n ∈ o.functions, n.isFunction = true
  page : ∀ n ∈ o.body, n.isPage = true → o.functions = []
  nodes : Node.Shaped o.nodes

theorem Shaped.prepend_page {o : Outline} (ho : o.Shaped) (span : Span) :
    (o.prepend (.page span)).Shaped where
  body := by simp [prepend, Node.isFunction]
  functions := by simp [prepend]
  page := by simp [prepend]
  nodes := Node.shaped_nil.cons ho.nodes trivial (by simp)

theorem Shaped.prepend_function {o : Outline} (ho : o.Shaped) {name : String}
    (hname : Node.IsFunctionName name) (span : Span) :
    (o.prepend (.function name span)).Shaped where
  body := by simp [prepend]
  functions := List.forall_mem_cons.2 ⟨rfl, ho.functions⟩
  page := by simp [prepend]
  nodes := by
    have hbody : Node.Shaped o.body := ho.nodes.sublist (List.sublist_append_left _ _)
    have hfunctions : Node.Shaped o.functions := ho.nodes.sublist (List.sublist_append_right _ _)
    refine hfunctions.cons hbody ⟨hname, ho.body⟩ fun m hm => ?_
    refine ⟨rfl, fun _ => ho.functions m hm, fun _ _ n hn => ?_⟩
    -- a page in the body would have taken `m`
    by_cases hpage : n.isPage = true
    · rw [ho.page n hn hpage] at hm
      cases hm
    · simpa using hpage

theorem Shaped.prepend_leaf {o : Outline} (ho : o.Shaped) {l : Leaf} (hl : l.node.WellFormed) :
    (o.prepend (.leaf l)).Shaped where
  body := List.forall_mem_cons.2 ⟨l.isFunction_node, ho.body⟩
  functions := ho.functions
  page n hn hpage := by
    rcases List.mem_cons.1 hn with rfl | hn
    · rw [l.isPage_node] at hpage
      cases hpage
    · exact ho.page n hn hpage
  nodes := by
    have hchildren : Node.Shaped l.node.children := l.children_node ▸ Node.shaped_nil
    refine ho.nodes.cons hchildren hl fun m _ => ?_
    have hno : ¬ l.node.isFunction = true := by simp [l.isFunction_node]
    exact ⟨l.isPage_node, fun h => absurd h hno, fun h => absurd h hno⟩

theorem Shaped.prepend {o : Outline} (ho : o.Shaped) {h : Header} (hh : h.WellFormed) :
    (o.prepend h).Shaped := by
  cases h with
  | page span => exact ho.prepend_page span
  | function name span => exact ho.prepend_function hh span
  | leaf l => exact ho.prepend_leaf hh

theorem shaped_nest {hs : List Header} (hhs : ∀ h ∈ hs, h.WellFormed) : (nest hs).Shaped := by
  induction hs with
  | nil => exact ⟨by simp [nest], by simp [nest], by simp [nest], Node.shaped_nil⟩
  | cons h hs ih =>
      obtain ⟨hh, hhs⟩ := List.forall_mem_cons.1 hhs
      exact (ih hhs).prepend hh

end Outline

namespace Document

open Scan

theorem eq_ok_of_toOption {α : Type} {x : Except ParseError α} {a : α}
    (h : x.toOption = some a) : x = .ok a := by
  cases x with
  | error e => cases h
  | ok b =>
      cases h
      rfl

theorem parse_eq_ok_iff {source : String} {d : Document} :
    parse source = .ok d ↔
      ∃ hs, Scan.ofTokens (tokenize source) = .ok hs ∧ d = ⟨(Outline.nest hs).nodes⟩ := by
  rw [parse, ofTokens_eq]
  cases Scan.ofTokens (tokenize source) with
  | error e => simp [Except.map]
  | ok hs => simp [Except.map, eq_comm]

/-- At every depth a parsed document has its siblings in order and its statements in form. -/
theorem shaped_of_parse {source : String} {d : Document} (h : parse source = .ok d) :
    Node.Shaped d.nodes := by
  have hlexed : Lexed ((tokenize source).takeWhile (!·.isEnd)) := fun t ht =>
    hasForm_tokenize (List.takeWhile_subset _ ht)
  obtain ⟨hs, hscan, rfl⟩ := parse_eq_ok_iff.1 h
  exact (Outline.shaped_nest (wellFormed_headersFrom hlexed hscan)).nodes

theorem shaped_of_parse_page_in_function :
    ∃ d, parse "import css from [ x ] css function f function create page add nav with a and b" =
      .ok d ∧ d.nodes.length = 3 ∧ Node.Shaped d.nodes := by
  have hscan : (Scan.ofTokens (tokenize
      "import css from [ x ] css function f function create page add nav with a and b")).toOption =
      some [.leaf (.importing ⟨some "css", some "x.css", none, ⟨0, 25⟩⟩), .function "f" ⟨26, 36⟩,
        .function "anonymous" ⟨37, 45⟩, .page ⟨46, 57⟩,
        .leaf (.element ⟨.nav, "", ["a", "b"], ⟨58, 78⟩⟩)] := by decide +kernel
  have hparse := parse_eq_ok_iff.2 ⟨_, eq_ok_of_toOption hscan, rfl⟩
  exact ⟨_, hparse, rfl, shaped_of_parse hparse⟩

end Document

end EnglishPages
