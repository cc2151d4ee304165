import EnglishPages.Compilation
import EnglishPages.Proofs.DocumentShape
import Mathlib.Data.List.Forall2

/-!
What a compiled page shows of its imports. Between its title and its end the head holds one block
for each import that stands at the top level or directly in a setup function there: the compiled
source, if the path has a dialect and the source can be loaded, and otherwise a reference.

Which imports these are is said by their places. An address is the number of a statement among its
siblings, for each level from the top inward, and the order of the document is that of addresses.

Resolving and rendering go through the document on their own. They meet in one place: the head
imports of the resolved document are the resolved head imports.
-/

namespace EnglishPages

namespace Node

theorem mem_headersOf {n : Node} {ns : List Node} (hn : n ∈ ns) {h : Header}
    (hh : h ∈ headers n) : h ∈ headersOf ns := by
  induction ns with
  | nil => cases hn
  | cons m ns ih =>
      rw [headersOf]
      rcases List.mem_cons.1 hn with rfl | hn
      · exact List.mem_append_left _ hh
      · exact List.mem_append_right _ (ih hn)

theorem mem_headersOf_of_headImports {i : Import} {ns : List Node}
    (h : i ∈ Html.headImports ns) : Header.leaf (.importing i) ∈ headersOf ns := by
  obtain ⟨n, hn, hi⟩ := List.mem_flatMap.1 h
  refine mem_headersOf hn ?_
  cases n with
  | importing j =>
      obtain rfl := List.mem_singleton.1 hi
      exact List.mem_singleton_self _
  | function name children span =>
      simp only at hi
      split at hi
      · obtain ⟨m, hm, hmi⟩ := List.mem_filterMap.1 hi
        obtain rfl := import?_eq_some.1 hmi
        exact List.mem_cons_of_mem _ (mem_headersOf hm (List.mem_singleton_self _))
      · cases hi
  | page | title | script | element => cases hi

end Node

namespace Document

open Token Scan

theorem wellFormed_headersOf {source : String} {d : Document} (h : parse source = .ok d) :
    ∀ header ∈ Node.headersOf d.nodes, header.WellFormed := by
  have hlexed : Lexed ((tokenize source).takeWhile (!·.isEnd)) := fun t ht =>
    hasForm_tokenize (List.takeWhile_subset _ ht)
  obtain ⟨hs, hscan, rfl⟩ := parse_eq_ok_iff.1 h
  rw [Outline.headersOf_nest]
  exact wellFormed_headersFrom hlexed hscan

theorem compiled_eq_none {source : String} {d : Document} (h : parse source = .ok d)
    {i : Import} (hi : i ∈ Html.headImports d.nodes) : i.compiled = none := by
  have himport : (Header.leaf (.importing i)).WellFormed :=
    wellFormed_headersOf h _ (Node.mem_headersOf_of_headImports hi)
  exact himport.1

/-- An import that belongs to the head stands at the top level, or directly in a function there
whose name starts with `setup`. -/
inductive InHead (d : Document) : List Nat → Import → Prop
  | top {k : Nat} {i : Import} (h : d.nodes[k]? = some (.importing i)) : InHead d [k] i
  | setup {k l : Nat} {name : String} {children : List Node} {span : Span} {i : Import}
      (hfunction : d.nodes[k]? = some (.function name children span))
      (hname : "setup".toList <+: name.toList) (h : children[l]? = some (.importing i)) :
      InHead d [k, l] i

/-- The imports of the head with their addresses, none left out, in the order of the document. -/
structure ListsHead (d : Document) (is : List (List Nat × Import)) : Prop where
  mem_iff : ∀ x, x ∈ is ↔ d.InHead x.1 x.2
  inOrder : is.Pairwise fun x y => List.Lex (· < ·) x.1 y.1

end Document

namespace Node

def numberedImports (ns : List Node) : List (Nat × Import) :=
  ns.zipIdx.filterMap fun x => x.1.import?.map fun i => (x.2, i)

theorem map_numberedImports (ns : List Node) :
    (numberedImports ns).map Prod.snd = ns.filterMap import? := by
  conv_rhs => rw [← List.zipIdx_map_fst 0 ns]
  rw [numberedImports, List.map_filterMap, List.filterMap_map]
  congr 1
  funext x
  cases h : x.1.import? <;> simp [h]

theorem mem_numberedImports {ns : List Node} {l : Nat} {i : Import} :
    (l, i) ∈ numberedImports ns ↔ ns[l]? = some (.importing i) := by
  rw [numberedImports, List.mem_filterMap]
  constructor
  · rintro ⟨⟨n, k⟩, hn, hi⟩
    obtain ⟨j, hj, hji⟩ := Option.map_eq_some_iff.1 hi
    obtain ⟨rfl, rfl⟩ := Prod.mk.inj hji
    rw [← import?_eq_some.1 hj]
    exact List.mk_mem_zipIdx_iff_getElem?.1 hn
  · intro h
    exact ⟨(.importing i, l), List.mk_mem_zipIdx_iff_getElem?.2 h, rfl⟩

theorem pairwise_snd_zipIdx {α : Type} (xs : List α) :
    xs.zipIdx.Pairwise fun x y => x.2 < y.2 := by
  rw [← List.pairwise_map (f := Prod.snd), List.zipIdx_map_snd]
  exact List.pairwise_lt_range' 1

theorem pairwise_numberedImports (ns : List Node) :
    (numberedImports ns).Pairwise fun x y => x.1 < y.1 := by
  rw [numberedImports, List.pairwise_filterMap]
  refine (pairwise_snd_zipIdx ns).imp fun {x y} hxy a ha b hb => ?_
  obtain ⟨i, -, rfl⟩ := Option.map_eq_some_iff.1 ha
  obtain ⟨j, -, rfl⟩ := Option.map_eq_some_iff.1 hb
  exact hxy

def headPlaces (k : Nat) : Node → List (List Nat × Import)
  | importing i => [([k], i)]
  | function name children _ =>
      if isSetupName name then (numberedImports children).map fun x => ([k, x.1], x.2) else []
  | _ => []

theorem map_headPlaces (k : Nat) (n : Node) :
    (n.headPlaces k).map Prod.snd = Html.headImports [n] := by
  rw [Html.headImports, List.flatMap_singleton]
  cases n with
  | function name children span =>
      simp only [headPlaces]
      split
      · rw [List.map_map]
        exact map_numberedImports children
      · rfl
  | page | importing | title | script | element => rfl

theorem exists_address_of_mem_headPlaces {k : Nat} {n : Node} {x : List Nat × Import}
    (h : x ∈ n.headPlaces k) : ∃ address, x.1 = k :: address := by
  cases n with
  | importing i =>
      obtain rfl := List.mem_singleton.1 h
      exact ⟨[], rfl⟩
  | function name children span =>
      simp only [headPlaces] at h
      split at h
      · obtain ⟨y, -, rfl⟩ := List.mem_map.1 h
        exact ⟨[y.1], rfl⟩
      · cases h
  | page | title | script | element => cases h

theorem pairwise_headPlaces (k : Nat) (n : Node) :
    (n.headPlaces k).Pairwise fun x y => List.Lex (· < ·) x.1 y.1 := by
  cases n with
  | importing i => exact List.pairwise_singleton _ _
  | function name children span =>
      simp only [headPlaces]
      split
      · rw [List.pairwise_map]
        refine (pairwise_numberedImports children).imp fun {x y} hxy => ?_
        exact .cons (.rel hxy)
      · exact .nil
  | page | title | script | element => exact .nil

end Node

namespace Document

def headPlaces (d : Document) : List (List Nat × Import) :=
  d.nodes.zipIdx.flatMap fun x => x.1.headPlaces x.2

theorem map_headPlaces (d : Document) :
    d.headPlaces.map Prod.snd = Html.headImports d.nodes := by
  conv_rhs => rw [← List.zipIdx_map_fst 0 d.nodes]
  rw [headPlaces, List.map_flatMap, Html.headImports, List.flatMap_map]
  congr 1
  funext x
  rw [x.1.map_headPlaces x.2, Html.headImports, List.flatMap_singleton]

theorem mem_headPlaces {d : Document} {address : List Nat} {i : Import} :
    (address, i) ∈ d.headPlaces ↔ d.InHead address i := by
  rw [headPlaces, List.mem_flatMap]
  constructor
  · rintro ⟨⟨n, k⟩, hn, hi⟩
    have hk : d.nodes[k]? = some n := List.mk_mem_zipIdx_iff_getElem?.1 hn
    cases n with
    | importing j =>
        obtain ⟨rfl, rfl⟩ := Prod.mk.inj (List.mem_singleton.1 hi)
        exact .top hk
    | function name children span =>
        simp only [Node.headPlaces] at hi
        split at hi
        · next hname =>
            obtain ⟨⟨l, j⟩, hj, hij⟩ := List.mem_map.1 hi
            obtain ⟨rfl, rfl⟩ := Prod.mk.inj hij
            exact .setup hk (List.isPrefixOf_iff_prefix.1 hname) (Node.mem_numberedImports.1 hj)
        · cases hi
    | page | title | script | element => cases hi
  · intro h
    cases h with
    | @top k _ hk =>
        exact ⟨(.importing i, k), List.mk_mem_zipIdx_iff_getElem?.2 hk, List.mem_singleton_self _⟩
    | @setup k l name children span _ hk hname hl =>
        refine ⟨(.function name children span, k), List.mk_mem_zipIdx_iff_getElem?.2 hk, ?_⟩
        have hsetup : Node.isSetupName name = true := List.isPrefixOf_iff_prefix.2 hname
        rw [Node.headPlaces, if_pos hsetup]
        exact List.mem_map.2 ⟨(l, i), Node.mem_numberedImports.2 hl, rfl⟩

theorem listsHead_headPlaces (d : Document) : d.ListsHead d.headPlaces where
  mem_iff _ := mem_headPlaces
  inOrder := by
    rw [headPlaces, List.pairwise_flatMap]
    refine ⟨fun x _ => x.1.pairwise_headPlaces x.2, ?_⟩
    refine (Node.pairwise_snd_zipIdx d.nodes).imp fun {x y} hxy a ha b hb => ?_
    obtain ⟨front, hfront⟩ := Node.exists_address_of_mem_headPlaces ha
    obtain ⟨back, hback⟩ := Node.exists_address_of_mem_headPlaces hb
    rw [hfront, hback]
    exact .rel hxy

theorem ListsHead.unique {d : Document} {is is' : List (List Nat × Import)} (h : d.ListsHead is)
    (h' : d.ListsHead is') : is = is' := by
  have hasymm : ∀ {a b : List Nat}, List.Lex (· < ·) a b → ¬ List.Lex (· < ·) b a :=
    fun hab hba => List.lt_asymm hab hba
  have hnodup : ∀ {is : List (List Nat × Import)}, d.ListsHead is → is.Nodup := by
    intro is h
    refine h.inOrder.imp ?_
    rintro x _ hxx rfl
    exact hasymm hxx hxx
  refine List.Perm.eq_of_pairwise (fun x y _ _ hxy hyx => absurd hyx (hasymm hxy)) h.inOrder
    h'.inOrder ?_
  exact (List.perm_ext_iff_of_nodup (hnodup h) (hnodup h')).2 fun x =>
    (h.mem_iff x).trans (h'.mem_iff x).symm

end Document

namespace Html

theorem headImports_resolve (base : Path) (load : Loader) (d : Document) :
    headImports (d.resolve base load).nodes =
      (headImports d.nodes).map fun i => (i.resolve base load).1 := by
  have himport : ∀ n : Node, (n.resolveImport base load).import? =
      n.import?.map fun i => (i.resolve base load).1 := by
    intro n
    cases n <;> rfl
  simp only [headImports, Document.resolve, List.flatMap_map, List.map_flatMap]
  congr 1
  funext n
  cases n with
  | function name children span =>
      simp only [Node.resolve]
      split
      · rw [List.filterMap_map, List.map_filterMap]
        congr 1
        funext m
        exact himport m
      · rfl
  | page | importing | title | script | element => rfl

def indentation (unit : String) (depth : Nat) : String :=
  String.join (List.replicate depth unit)

def indented (unit : String) (depth : Nat) (text : String) : String :=
  indentation unit depth ++ text

def codeText? (unit : String) (line : String) : Option (List Char) :=
  if line.isEmpty then some [] else (indentation unit 3).toList.isPrefixOf? line.toList

def withoutFinalNewline (code : List Char) : List Char :=
  if code.getLast? = some '\n' then code.dropLast else code

/-- Lines that hold some code: taken out of their indentation and joined, they are the code less
the newline at its end. -/
structure HoldCode (unit : String) (ls : List String) (code : String) : Prop where
  nonempty : ls ≠ []
  lines : ∀ l ∈ ls, '\n' ∉ l.toList
  code : ∃ texts, ls.map (codeText? unit) = texts.map some ∧
    Text.joined '\n' texts = withoutFinalNewline code.toList

inductive IsReference (href : String) : String → Prop
  | script : IsReference href ("<script src=\"" ++ href ++ "\"></script>")
  | module : IsReference href ("<script type=\"module\" src=\"" ++ href ++ "\"></script>")
  | styleSheet : IsReference href ("<link rel=\"stylesheet\" href=\"" ++ href ++ "\">")

def CodeBlock (unit tag code : String) (ls : List String) : Prop :=
  ∃ inner, HoldCode unit inner code ∧
    ls = indented unit 2 ("<" ++ tag ++ ">") :: inner ++ [indented unit 2 ("</" ++ tag ++ ">")]

def ReferenceBlock (unit path : String) (ls : List String) : Prop :=
  ∃ line, IsReference (escape path) line ∧ ls = [indented unit 2 line]

/-- The lines that the head has for an import, from its path and the source there. -/
def HeadBlock (unit : String) (base : Path) (load : Loader) (i : Import) (ls : List String) :
    Prop :=
  match i.path with
  | none => ls = []
  | some path =>
      match Path.extension? ⟨path⟩, load (base.join ⟨path⟩) with
      | some "seng", .ok source => CodeBlock unit "script" (Dialect.script.compile source) ls
      | some "ceng", .ok source => CodeBlock unit "style" (Dialect.style.compile source) ls
      | _, _ => ReferenceBlock unit path ls

def linesToTitle (unit title : String) : List String :=
  ["<!DOCTYPE html>", "<html>", indented unit 1 "<head>",
   indented unit 2 "<meta charset=\"UTF-8\">",
   indented unit 2
     "<meta name=\"viewport\" content=\"width=device-width, initial-scale=1.0\">",
   indented unit 2 ("<title>" ++ escape title ++ "</title>")]

def linesFromHeadEnd (unit : String) (body : List String) : List String :=
  [indented unit 1 "</head>", indented unit 1 "<body>"] ++ body ++
    [indented unit 1 "</body>", "</html>"]

variable {unit : String}

theorem render_line {depth : Nat} {pieces : List Markup} {text : String}
    (h : String.join (pieces.map Markup.render) = text) (hne : text ≠ "") :
    Line.render unit ⟨depth, pieces⟩ = indented unit depth text := by
  have hempty : text.isEmpty = false := by
    rw [Bool.eq_false_iff, ne_eq, String.isEmpty_iff]
    exact hne
  simp only [Line.render, h, hempty, Bool.false_eq_true, if_false]
  rfl

theorem render_opening (depth : Nat) (tag : String) :
    Line.render unit ⟨depth, [.opening tag []]⟩ = indented unit depth ("<" ++ tag ++ ">") := by
  apply render_line
  · simp [Markup.render]
  · simp [← String.toList_inj]

theorem render_closing (depth : Nat) (tag : String) :
    Line.render unit ⟨depth, [.closing tag]⟩ = indented unit depth ("</" ++ tag ++ ">") := by
  apply render_line
  · simp [Markup.render]
  · simp [← String.toList_inj]

theorem render_titleLine (depth : Nat) (title : String) :
    Line.render unit (titleLine depth title) =
      indented unit depth ("<title>" ++ escape title ++ "</title>") := by
  apply render_line
  · simp [Markup.render, String.append_assoc]
  · simp [← String.toList_inj]

theorem referenceBlock_reference (type path : String) :
    ReferenceBlock unit path [Line.render unit ⟨2, reference type path⟩] := by
  have hform : ∀ {pieces : List Markup} {line : String}, IsReference (escape path) line →
      String.join (pieces.map Markup.render) = line →
      ReferenceBlock unit path [Line.render unit ⟨2, pieces⟩] := by
    intro pieces line hline hpieces
    refine ⟨line, hline, congrArg ([·]) (render_line hpieces ?_)⟩
    cases hline <;> simp [← String.toList_inj]
  have hmodule : escape "module" = "module" := by decide
  have hsheet : escape "stylesheet" = "stylesheet" := by decide
  simp only [reference]
  split
  · exact hform .script (by simp [Markup.render, Markup.attributeText, ← String.toList_inj])
  split
  · exact hform .module
      (by simp [Markup.render, Markup.attributeText, hmodule, ← String.toList_inj])
  split
  · exact hform .styleSheet
      (by simp [Markup.render, Markup.attributeText, hsheet, ← String.toList_inj])
  · exact hform .script (by simp [Markup.render, Markup.attributeText, ← String.toList_inj])

theorem render_verbatim (depth : Nat) (text : String) :
    Line.render unit ⟨depth, [.verbatim text]⟩ =
      if text.isEmpty then "" else indented unit depth text := by
  simp [Line.render, Markup.render, indented, indentation]

theorem codeText?_render (text : String) :
    codeText? unit (Line.render unit ⟨3, [.verbatim text]⟩) = some text.toList := by
  rw [render_verbatim]
  split
  · next h =>
      rw [String.isEmpty_iff.1 h]
      rfl
  · next h =>
      have hne : (indented unit 3 text).isEmpty = false := by
        rw [Bool.eq_false_iff, ne_eq, String.isEmpty_iff, indented, String.append_eq_empty_iff]
        exact fun hboth => h (String.isEmpty_iff.2 hboth.2)
      rw [codeText?, hne, indented, String.toList_append]
      exact List.isPrefixOf?_eq_some_iff_append_eq.2 rfl

theorem newline_not_mem_render (hunit : '\n' ∉ unit.toList) (depth : Nat) {text : String}
    (htext : '\n' ∉ text.toList) : '\n' ∉ (Line.render unit ⟨depth, [.verbatim text]⟩).toList := by
  rw [render_verbatim]
  split
  · simp
  · rw [indented, indentation, String.toList_append, String.toList_join]
    simp [hunit, htext]

theorem holdCode_codeLines (hunit : '\n' ∉ unit.toList) (code : String) :
    HoldCode unit ((codeLines code).map fun l => Line.render unit ⟨3, [.verbatim l]⟩) code where
  nonempty := by
    have hne := Text.pieces_ne_nil '\n' (withoutFinalNewline code.toList)
    simpa [codeLines, Text.lines, withoutFinalNewline] using hne
  lines l hl := by
    obtain ⟨text, htext, rfl⟩ := List.mem_map.1 hl
    obtain ⟨cs, hcs, rfl⟩ := List.mem_map.1 htext
    refine newline_not_mem_render hunit 3 ?_
    rw [String.toList_ofList]
    exact Text.not_mem_of_mem_pieces hcs
  code := by
    refine ⟨Text.lines (withoutFinalNewline code.toList), ?_, Text.joined_pieces _ _⟩
    rw [codeLines, List.map_map, List.map_map]
    refine List.map_congr_left fun cs _ => ?_
    simp only [Function.comp_apply, codeText?_render, String.toList_ofList]

theorem importLines_of_compiled (depth : Nat) (d : Dialect) (path code : String) (span : Span) :
    importLines depth ⟨some d.sourceExtension, some path, some code, span⟩ =
      inlined depth (inlineTag d) (codeLines code) := by
  have hdialect : inlineDialect? ⟨some d.sourceExtension, some path, some code, span⟩ = some d := by
    rw [inlineDialect?, Option.bind_some, Dialect.ofExtension?_sourceExtension]
  simp only [importLines, hdialect]

theorem codeBlock_inlined (hunit : '\n' ∉ unit.toList) (tag code : String) :
    CodeBlock unit tag code ((inlined 2 tag (codeLines code)).map (Line.render unit)) := by
  refine ⟨_, holdCode_codeLines hunit code, ?_⟩
  simp [inlined, render_opening, render_closing]

section Blocks

variable {base : Path} {load : Loader} {i : Import} {path : String}

theorem codeBlock_of_loaded (hunit : '\n' ∉ unit.toList) (hpath : i.path = some path)
    {d : Dialect} (hdialect : Dialect.ofPath? ⟨path⟩ = some d) {source : String}
    (hload : load (base.join ⟨path⟩) = .ok source) :
    CodeBlock unit (inlineTag d) (d.compile source)
      ((importLines 2 (i.resolve base load).1).map (Line.render unit)) := by
  obtain ⟨type, _, compiled, span⟩ := i
  obtain rfl : _ = some path := hpath
  simp only [Import.resolve, Import.dialect?, Option.bind_some, hdialect, hload,
    importLines_of_compiled]
  exact codeBlock_inlined hunit _ _

theorem referenceBlock_of_unresolved (hcompiled : i.compiled = none) (hpath : i.path = some path)
    (hresolve : (i.resolve base load).1 = i) :
    ReferenceBlock unit path
      ((importLines 2 (i.resolve base load).1).map (Line.render unit)) := by
  obtain ⟨type, _, _, span⟩ := i
  obtain rfl : _ = none := hcompiled
  obtain rfl : _ = some path := hpath
  rw [hresolve]
  exact referenceBlock_reference (type.getD "") path

theorem headBlock_importLines (hunit : '\n' ∉ unit.toList) (hcompiled : i.compiled = none) :
    HeadBlock unit base load i
      ((importLines 2 (i.resolve base load).1).map (Line.render unit)) := by
  unfold HeadBlock
  split
  · next hpath => simp [Import.resolve, importLines, hpath]
  next path hpath =>
    split
    · next source hextension hload =>
        have hdialect : Dialect.ofPath? ⟨path⟩ = some .script :=
          Dialect.ofPath?_eq_some_iff.2 hextension
        exact codeBlock_of_loaded hunit hpath hdialect hload
    · next source hextension hload =>
        have hdialect : Dialect.ofPath? ⟨path⟩ = some .style :=
          Dialect.ofPath?_eq_some_iff.2 hextension
        exact codeBlock_of_loaded hunit hpath hdialect hload
    · next hscript hstyle =>
        refine referenceBlock_of_unresolved hcompiled hpath ?_
        simp only [Import.resolve, Import.dialect?, hpath, Option.bind_some]
        cases hdialect : Dialect.ofPath? ⟨path⟩ with
        | none => rfl
        | some dialect =>
            have hextension := Dialect.ofPath?_eq_some_iff.1 hdialect
            cases hload : load (base.join ⟨path⟩) with
            | error e => rfl
            | ok source =>
                cases dialect with
                | script => exact absurd hload (hscript source hextension)
                | style => exact absurd hload (hstyle source hextension)

end Blocks

theorem indented_zero (text : String) : indented unit 0 text = text := by
  simp [indented, indentation]

theorem render_charset (depth : Nat) :
    Line.render unit ⟨depth, [.opening "meta" [("charset", "UTF-8")]]⟩ =
      indented unit depth "<meta charset=\"UTF-8\">" :=
  render_line (by decide) (by decide)

theorem render_viewport (depth : Nat) :
    Line.render unit ⟨depth, [.opening "meta"
        [("name", "viewport"), ("content", "width=device-width, initial-scale=1.0")]]⟩ =
      indented unit depth
        "<meta name=\"viewport\" content=\"width=device-width, initial-scale=1.0\">" :=
  render_line (by decide) (by decide)

theorem map_render_pageLines (layout : Layout) (d : Document) :
    (pageLines layout d).map (Line.render layout.unit) =
      linesToTitle layout.unit ((title? d.nodes).getD layout.defaultTitle) ++
        (headImports d.nodes).flatMap
          (fun i => (importLines 2 i).map (Line.render layout.unit)) ++
        linesFromHeadEnd layout.unit ((nodesLines 2 d.nodes).map (Line.render layout.unit)) := by
  have hdoctype : Line.render layout.unit ⟨0, [.doctype]⟩ = "<!DOCTYPE html>" :=
    (render_line rfl (by decide)).trans (indented_zero _)
  simp [pageLines, headLines, linesToTitle, linesFromHeadEnd, List.map_flatMap, hdoctype,
    render_opening, render_closing, render_charset, render_viewport, render_titleLine,
    indented_zero]

end Html

/-- A source that parses compiles, and between the title and the end of the head its page has one
block after another, in the order of the document, for the imports of the head. -/
theorem head_of_compile {source : String} {d : Document} (h : Document.parse source = .ok d)
    (base : Path) (load : Loader) (config : Config) (hinline : config.inlineImports = true) :
    ∃ c : Compilation, compile source base load config = .ok c ∧
      ∃ (is : List (List Nat × Import)) (blocks : List (List String)),
        d.ListsHead is ∧
        List.Forall₂ (fun x ls => Html.HeadBlock config.indentUnit base load x.2 ls) is blocks ∧
        c.html = "\n".intercalate
          (Html.linesToTitle config.indentUnit
              ((Html.title? c.document.nodes).getD config.defaultTitle) ++
            blocks.flatten ++
            Html.linesFromHeadEnd config.indentUnit
              ((Html.nodesLines 2 c.document.nodes).map (Html.Line.render config.indentUnit))) := by
  have hcompile : compile source base load config = .ok (d.compile base load config) := by
    rw [compile, h]
    rfl
  have hdocument : (d.compile base load config).document = d.resolve base load := by
    simp [Document.compile, hinline]
  have hhtml : (d.compile base load config).html =
      Html.render config.layout (d.resolve base load) := by
    simp [Document.compile, hinline]
  have hunit : '\n' ∉ config.indentUnit.toList := by simp [Config.indentUnit]
  let block (i : Import) : List String :=
    (Html.importLines 2 (i.resolve base load).1).map (Html.Line.render config.indentUnit)
  refine ⟨d.compile base load config, hcompile, d.headPlaces, d.headPlaces.map fun x => block x.2,
    d.listsHead_headPlaces, ?_, ?_⟩
  · rw [List.forall₂_map_right_iff, List.forall₂_same]
    intro x hx
    have hmem : x.2 ∈ Html.headImports d.nodes := d.map_headPlaces ▸ List.mem_map_of_mem hx
    exact Html.headBlock_importLines hunit (Document.compiled_eq_none h hmem)
  · have hblocks : (d.headPlaces.map fun x => block x.2).flatten =
        (Html.headImports d.nodes).flatMap block := by
      rw [← d.map_headPlaces, List.flatMap_map, List.flatMap_def]
    rw [hdocument, hhtml, hblocks, Html.render, Html.renderLines, Html.map_render_pageLines,
      Html.headImports_resolve, List.flatMap_map]
    rfl

/-- A script that is there, a style sheet that is not, and an import without a path; none in a
function of another name. -/
theorem head_of_compile_script :
    ∃ (d : Document) (c : Compilation) (blocks : List (List String)),
      Document.parse ("import css from [a.seng] function setup import from [b.ceng] import from " ++
        "function main import from [c.ceng]") = .ok d ∧
      Config.default.inlineImports = true ∧
      compile ("import css from [a.seng] function setup import from [b.ceng] import from " ++
          "function main import from [c.ceng]") ⟨"web"⟩
        (Sources.ofList [(⟨"web/a.seng"⟩, "log(1)")]).loader .default = .ok c ∧
      d.ListsHead [([0], ⟨some "css", some "a.seng", none, ⟨0, 24⟩⟩),
        ([1, 0], ⟨none, some "b.ceng", none, ⟨40, 60⟩⟩), ([1, 1], ⟨none, none, none, ⟨61, 72⟩⟩)] ∧
      List.Forall₂ (fun x ls => Html.HeadBlock Config.default.indentUnit ⟨"web"⟩
          (Sources.ofList [(⟨"web/a.seng"⟩, "log(1)")]).loader x.2 ls)
        [([0], ⟨some "css", some "a.seng", none, ⟨0, 24⟩⟩),
          ([1, 0], ⟨none, some "b.ceng", none, ⟨40, 60⟩⟩), ([1, 1], ⟨none, none, none, ⟨61, 72⟩⟩)]
        blocks ∧
      c.html = "\n".intercalate
        (Html.linesToTitle Config.default.indentUnit
            ((Html.title? c.document.nodes).getD Config.default.defaultTitle) ++
          blocks.flatten ++
          Html.linesFromHeadEnd Config.default.indentUnit
            ((Html.nodesLines 2 c.document.nodes).map
              (Html.Line.render Config.default.indentUnit))) := by
  have hscan : (Scan.ofTokens (Token.tokenize
      ("import css from [a.seng] function setup import from [b.ceng] import from " ++
        "function main import from [c.ceng]"))).toOption =
      some [.leaf (.importing ⟨some "css", some "a.seng", none, ⟨0, 24⟩⟩),
        .function "setup" ⟨25, 39⟩, .leaf (.importing ⟨none, some "b.ceng", none, ⟨40, 60⟩⟩),
        .leaf (.importing ⟨none, none, none, ⟨61, 72⟩⟩), .function "main" ⟨73, 86⟩,
        .leaf (.importing ⟨none, some "c.ceng", none, ⟨87, 107⟩⟩)] := by decide +kernel
  have hparse := Document.parse_eq_ok_iff.2 ⟨_, Document.eq_ok_of_toOption hscan, rfl⟩
  obtain ⟨c, hcompile, is, blocks, hlists, hblocks, hhtml⟩ :=
    head_of_compile hparse ⟨"web"⟩ (Sources.ofList [(⟨"web/a.seng"⟩, "log(1)")]).loader
      .default rfl
  obtain rfl := hlists.unique (Document.listsHead_headPlaces _)
  exact ⟨_, c, blocks, hparse, rfl, hcompile, hlists, hblocks, hhtml⟩

end EnglishPages
