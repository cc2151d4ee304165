import EnglishPages.Proofs.HeadImports
import EnglishPages.Proofs.Scanning
import Mathlib.Data.List.Basic

/-!
Where inlined code ends. What a script or a style element holds is raw text: whoever reads the page
ends the element at the first end tag that follows, whatever it means to the code. Code is inlined
as it is. So an element ends where it was closed if the code has no end tag in it, and inside the
code if it has one.

Spaces and newlines are no part of an end tag. That is why the lines of a block, with their
indentation, have an end tag in them exactly if the code has.
-/

namespace EnglishPages.Html

def endTag (tag : String) : List Char := ("</" ++ tag).toList

def startsEndTag (tag : String) (cs : List Char) : Bool :=
  (endTag tag).isPrefixOf (cs.map Char.toLower)

def hasEndTag (tag : String) (cs : List Char) : Bool :=
  occursIn (endTag tag) (cs.map Char.toLower)

/-- What follows an opening tag, cut in two: the text of the element, and the rest from its end tag
on. -/
def rawText (tag : String) : List Char → List Char × List Char
  | [] => ([], [])
  | c :: cs =>
      if startsEndTag tag (c :: cs) then ([], c :: cs)
      else Prod.map (c :: ·) id (rawText tag cs)

def elementText (unit : String) (ls : List String) : List Char :=
  '\n' :: (Text.terminated ls).toList ++ (indentation unit 2).toList

def fromEndTag (tag : String) (below : List String) : List Char :=
  ("</" ++ tag ++ ">").toList ++ '\n' :: ("\n".intercalate below).toList

def linesAbove (unit title : String) (base : Path) (load : Loader) (before : List Import) :
    List String :=
  linesToTitle unit title ++
    before.flatMap fun i => (importLines 2 (i.resolve base load).1).map (Line.render unit)

theorem occursIn_append_cons {needle : List Char} {s : Char} (hne : needle ≠ []) (hs : s ∉ needle)
    (xs ys : List Char) :
    occursIn needle (xs ++ s :: ys) = (occursIn needle xs || occursIn needle ys) := by
  have hempty : needle.isEmpty = false := by simpa using hne
  induction xs with
  | nil =>
      have hstart : needle.isPrefixOf (s :: ys) = false := by
        rw [← List.nil_append (s :: ys), Text.isPrefixOf_append_cons hs]
        cases needle with
        | nil => exact absurd rfl hne
        | cons n ns => rfl
      simp [occursIn, hstart, hempty]
  | cons x xs ih =>
      have hstart := Text.isPrefixOf_append_cons hs (x :: xs) ys
      rw [List.cons_append] at hstart ⊢
      rw [occursIn, occursIn, hstart, ih, Bool.or_assoc]

section EndTags

variable (d : Dialect)

theorem hasEndTag_append_cons {s : Char} (hs : s = ' ' ∨ s = '\n') (xs ys : List Char) :
    hasEndTag (inlineTag d) (xs ++ s :: ys) =
      (hasEndTag (inlineTag d) xs || hasEndTag (inlineTag d) ys) := by
  have hne : endTag (inlineTag d) ≠ [] := by cases d <;> decide
  have hmem : s.toLower ∉ endTag (inlineTag d) := by
    rcases hs with rfl | rfl <;> cases d <;> decide
  rw [hasEndTag, List.map_append, List.map_cons, occursIn_append_cons hne hmem]
  rfl

theorem hasEndTag_nil : hasEndTag (inlineTag d) [] = false := by
  cases d <;> rfl

theorem hasEndTag_spaces_append {ss : List Char} (hss : ∀ c ∈ ss, c = ' ') (cs : List Char) :
    hasEndTag (inlineTag d) (ss ++ cs) = hasEndTag (inlineTag d) cs := by
  induction ss with
  | nil => rfl
  | cons s ss ih =>
      have hs : s = ' ' ∨ s = '\n' := .inl (hss s List.mem_cons_self)
      have hcut := hasEndTag_append_cons d hs [] (ss ++ cs)
      rw [hasEndTag_nil, Bool.false_or, ih fun c hc => hss c (List.mem_cons_of_mem s hc)] at hcut
      exact hcut

theorem hasEndTag_terminated_append (ls : List String) (cs : List Char) :
    hasEndTag (inlineTag d) ((Text.terminated ls).toList ++ cs) =
      (ls.any (fun l => hasEndTag (inlineTag d) l.toList) || hasEndTag (inlineTag d) cs) := by
  induction ls with
  | nil => rfl
  | cons l ls ih =>
      rw [Text.terminated_cons, List.append_assoc, List.cons_append,
        hasEndTag_append_cons d (.inr rfl), ih, List.any_cons, Bool.or_assoc]

theorem hasEndTag_joined (ps : List (List Char)) :
    hasEndTag (inlineTag d) (Text.joined '\n' ps) = ps.any (hasEndTag (inlineTag d)) := by
  induction ps with
  | nil => exact hasEndTag_nil d
  | cons p ps ih =>
      cases ps with
      | nil => simp [Text.joined]
      | cons q qs =>
          rw [Text.joined_cons_cons, hasEndTag_append_cons d (.inr rfl), ih]
          rfl

theorem hasEndTag_withoutFinalNewline (cs : List Char) :
    hasEndTag (inlineTag d) (withoutFinalNewline cs) = hasEndTag (inlineTag d) cs := by
  rw [withoutFinalNewline]
  split
  · next hlast =>
      obtain ⟨front, rfl⟩ := List.getLast?_eq_some_iff.1 hlast
      rw [List.dropLast_concat, hasEndTag_append_cons d (.inr rfl), hasEndTag_nil, Bool.or_false]
  · rfl

theorem spaces_indentation {unit : String} (hunit : ∀ c ∈ unit.toList, c = ' ') (depth : Nat) :
    ∀ c ∈ (indentation unit depth).toList, c = ' ' := by
  intro c hc
  rw [indentation, String.toList_join] at hc
  obtain ⟨u, hu, hmem⟩ := List.mem_flatMap.1 hc
  obtain rfl := List.eq_of_mem_replicate hu
  exact hunit c hmem

theorem hasEndTag_codeText? {unit line : String} {text : List Char}
    (hunit : ∀ c ∈ unit.toList, c = ' ') (h : codeText? unit line = some text) :
    hasEndTag (inlineTag d) line.toList = hasEndTag (inlineTag d) text := by
  rw [codeText?] at h
  split at h
  · next hempty =>
      obtain rfl := Option.some.inj h
      rw [String.isEmpty_iff.1 hempty]
      rfl
  · have hline : (indentation unit 3).toList ++ text = line.toList :=
      List.append_eq_of_isPrefixOf?_eq_some h
    rw [← hline, hasEndTag_spaces_append d (spaces_indentation hunit 3)]

theorem any_hasEndTag_of_holdCode {unit code : String} {ls : List String}
    (hunit : ∀ c ∈ unit.toList, c = ' ') (h : HoldCode unit ls code) :
    ls.any (fun l => hasEndTag (inlineTag d) l.toList) = hasEndTag (inlineTag d) code.toList := by
  obtain ⟨texts, htexts, hjoined⟩ := h.code
  rw [← hasEndTag_withoutFinalNewline, ← hjoined, hasEndTag_joined]
  clear h hjoined
  induction ls generalizing texts with
  | nil =>
      obtain rfl := List.map_eq_nil_iff.1 htexts.symm
      rfl
  | cons l ls ih =>
      obtain ⟨text, rest, rfl, htext, hrest⟩ := List.map_eq_cons_iff.1 htexts.symm
      rw [List.any_cons, List.any_cons, ih rest hrest.symm,
        hasEndTag_codeText? d hunit htext.symm]

theorem hasEndTag_elementText {unit code : String} {ls : List String}
    (hunit : ∀ c ∈ unit.toList, c = ' ') (h : HoldCode unit ls code) :
    hasEndTag (inlineTag d) (elementText unit ls) = hasEndTag (inlineTag d) code.toList := by
  have hindent : hasEndTag (inlineTag d) (indentation unit 2).toList = false := by
    rw [← List.append_nil (indentation unit 2).toList,
      hasEndTag_spaces_append d (spaces_indentation hunit 2), hasEndTag_nil]
  have hstart := hasEndTag_append_cons d (.inr rfl) []
    ((Text.terminated ls).toList ++ (indentation unit 2).toList)
  rw [hasEndTag_nil, Bool.false_or, hasEndTag_terminated_append, hindent, Bool.or_false,
    any_hasEndTag_of_holdCode d hunit h] at hstart
  exact hstart

/-- An end tag has its only bracket in front, so none reaches over a bracket into what follows. -/
theorem startsEndTag_append {xs : List Char} (hne : xs ≠ []) (ys : List Char) :
    startsEndTag (inlineTag d) (xs ++ '<' :: ys) = startsEndTag (inlineTag d) xs := by
  obtain ⟨x, xs, rfl⟩ := List.exists_cons_of_ne_nil hne
  obtain ⟨name, hname, hbracket⟩ :
      ∃ name, endTag (inlineTag d) = '<' :: name ∧ Char.toLower '<' ∉ name :=
    ⟨(endTag (inlineTag d)).tail, by cases d <;> rfl, by cases d <;> decide⟩
  simp only [startsEndTag, hname, List.cons_append, List.map_cons, List.map_append,
    List.isPrefixOf_cons_cons, Text.isPrefixOf_append_cons hbracket]

theorem startsEndTag_closing (cs : List Char) :
    startsEndTag (inlineTag d) (("</" ++ inlineTag d ++ ">").toList ++ cs) = true := by
  cases d <;> rfl

theorem hasEndTag_cons (c : Char) (cs : List Char) :
    hasEndTag (inlineTag d) (c :: cs) =
      (startsEndTag (inlineTag d) (c :: cs) || hasEndTag (inlineTag d) cs) := rfl

theorem rawText_of_not_hasEndTag {xs ys : List Char}
    (hxs : hasEndTag (inlineTag d) xs = false)
    (hys : startsEndTag (inlineTag d) ('<' :: ys) = true) :
    rawText (inlineTag d) (xs ++ '<' :: ys) = (xs, '<' :: ys) := by
  induction xs with
  | nil => rw [List.nil_append, rawText, if_pos hys]
  | cons x xs ih =>
      rw [hasEndTag_cons, Bool.or_eq_false_iff] at hxs
      have hstart : startsEndTag (inlineTag d) (x :: (xs ++ '<' :: ys)) = false :=
        (startsEndTag_append d (List.cons_ne_nil x xs) ys).trans hxs.1
      rw [List.cons_append, rawText, hstart, ih hxs.2]
      rfl

theorem rawText_of_hasEndTag {xs : List Char} (hxs : hasEndTag (inlineTag d) xs = true)
    (ys : List Char) :
    ∃ front back, xs = front ++ back ∧ startsEndTag (inlineTag d) back = true ∧
      rawText (inlineTag d) (xs ++ '<' :: ys) = (front, back ++ '<' :: ys) := by
  induction xs with
  | nil =>
      rw [hasEndTag_nil] at hxs
      cases hxs
  | cons x xs ih =>
      have hstart : startsEndTag (inlineTag d) (x :: (xs ++ '<' :: ys)) =
          startsEndTag (inlineTag d) (x :: xs) :=
        startsEndTag_append d (List.cons_ne_nil x xs) ys
      rw [List.cons_append, rawText, hstart]
      cases hx : startsEndTag (inlineTag d) (x :: xs) with
      | true => exact ⟨[], x :: xs, rfl, hx, rfl⟩
      | false =>
          rw [hasEndTag_cons, hx, Bool.false_or] at hxs
          obtain ⟨front, back, rfl, hback, hcut⟩ := ih hxs
          refine ⟨x :: front, back, rfl, hback, ?_⟩
          rw [hcut]
          rfl

end EndTags

theorem toList_intercalate_append {ls ms : List String} (hms : ms ≠ []) :
    ("\n".intercalate (ls ++ ms)).toList =
      (Text.terminated ls).toList ++ ("\n".intercalate ms).toList := by
  have hnewline : "\n".toList = ['\n'] := rfl
  induction ls with
  | nil => rfl
  | cons l ls ih =>
      have hne : (ls ++ ms).map String.toList ≠ [] := by simp [hms]
      rw [Text.toList_intercalate hnewline] at ih ⊢
      rw [List.cons_append, List.map_cons, Text.joined_cons_of_ne_nil hne, ih,
        Text.terminated_cons]
      simp

theorem toList_page_around {unit tag : String} (above inner : List String) {below : List String}
    (hbelow : below ≠ []) :
    ("\n".intercalate (above ++ (indented unit 2 ("<" ++ tag ++ ">") :: inner ++
        [indented unit 2 ("</" ++ tag ++ ">")]) ++ below)).toList =
      (Text.terminated above).toList ++ (indented unit 2 ("<" ++ tag ++ ">")).toList ++
        elementText unit inner ++ fromEndTag tag below := by
  rw [toList_intercalate_append hbelow]
  simp [elementText, fromEndTag, indented]

theorem rawText_elementText (d : Dialect) {unit code : String} {ls : List String}
    (hunit : ∀ c ∈ unit.toList, c = ' ') (h : HoldCode unit ls code) (below : List String) :
    let tag := inlineTag d
    let text := elementText unit ls
    let rest := fromEndTag tag below
    (hasEndTag tag code.toList = false → rawText tag (text ++ rest) = (text, rest)) ∧
    (hasEndTag tag code.toList = true → ∃ front back, text = front ++ back ∧
      startsEndTag tag back = true ∧ rawText tag (text ++ rest) = (front, back ++ rest)) := by
  intro tag text rest
  have htext : hasEndTag tag text = hasEndTag tag code.toList := hasEndTag_elementText d hunit h
  obtain ⟨ys, hrest⟩ : ∃ ys, rest = '<' :: ys :=
    ⟨'/' :: (tag ++ ">").toList ++ '\n' :: ("\n".intercalate below).toList, by
      simp [rest, fromEndTag]⟩
  have hstart : startsEndTag tag rest = true := startsEndTag_closing d _
  rw [← htext]
  rw [hrest] at hstart ⊢
  exact ⟨fun hnone => rawText_of_not_hasEndTag d hnone hstart,
    fun hsome => rawText_of_hasEndTag d hsome ys⟩

end EnglishPages.Html

namespace EnglishPages

/-- A source that parses compiles. An import of the head that is inlined stands in the page as an
element with the lines of its code, and that element ends at the end tag that was written for it if
the code has no end tag in it, and otherwise at the first one in the code. -/
theorem rawText_of_compile {source : String} {d : Document} (h : Document.parse source = .ok d)
    (base : Path) (load : Loader) (config : Config) :
    ∃ c : Compilation, compile source base load config = .ok c ∧
      ∀ (before after : List (List Nat × Import)) (address : List Nat) (i : Import)
          (path text : String) (dialect : Dialect),
        config.inlineImports = true →
        d.ListsHead (before ++ (address, i) :: after) →
        i.path = some path → Dialect.ofPath? ⟨path⟩ = some dialect →
        load (base.join ⟨path⟩) = .ok text →
        ∃ ls below : List String,
          let unit := config.indentUnit
          let title := (Html.title? c.document.nodes).getD config.defaultTitle
          let tag := if dialect = .script then "script" else "style"
          let code := (dialect.compile text).toList
          let inner := Html.elementText unit ls
          let rest := Html.fromEndTag tag below
          Html.HoldCode unit ls (dialect.compile text) ∧
          c.html.toList =
            (Text.terminated
                (Html.linesAbove unit title base load (before.map Prod.snd))).toList ++
              (Html.indented unit 2 ("<" ++ tag ++ ">")).toList ++ inner ++ rest ∧
          (Html.hasEndTag tag code = false → Html.rawText tag (inner ++ rest) = (inner, rest)) ∧
          (Html.hasEndTag tag code = true → ∃ front back, inner = front ++ back ∧
            Html.startsEndTag tag back = true ∧
            Html.rawText tag (inner ++ rest) = (front, back ++ rest)) := by
  refine ⟨d.compile base load config, compile_eq_ok_iff.2 ⟨d, h, rfl⟩, ?_⟩
  intro before after address i path text dialect hinline hlists hpath hdialect hload
  have htag : (if dialect = .script then "script" else "style") = Html.inlineTag dialect := by
    cases dialect <;> rfl
  rw [htag]
  have hsplit : Html.headImports d.nodes =
      before.map Prod.snd ++ i :: after.map Prod.snd := by
    rw [← d.map_headPlaces, d.listsHead_headPlaces.unique hlists, List.map_append, List.map_cons]
  have hunit : ∀ c ∈ config.indentUnit.toList, c = ' ' := by simp [Config.indentUnit]
  have hnewline : '\n' ∉ config.indentUnit.toList := by simp [Config.indentUnit]
  obtain ⟨ls, hcode, hlines⟩ := Html.codeBlock_of_loaded hnewline hpath hdialect hload
  let below := (after.map Prod.snd).flatMap (fun j =>
      (Html.importLines 2 (j.resolve base load).1).map (Html.Line.render config.indentUnit)) ++
    Html.linesFromHeadEnd config.indentUnit
      ((Html.nodesLines 2 (d.resolve base load).nodes).map (Html.Line.render config.indentUnit))
  have hbelow : below ≠ [] := by simp [below, Html.linesFromHeadEnd]
  refine ⟨ls, below, hcode, ?_, Html.rawText_elementText dialect hunit hcode below⟩
  rw [← Html.toList_page_around _ _ hbelow, ← hlines]
  simp only [Document.compile, hinline, if_true, Html.render, Html.renderLines]
  rw [Html.map_render_pageLines, Html.headImports_resolve, List.flatMap_map, hsplit]
  simp [Html.linesAbove, below, Config.layout]

def demoSources : Sources :=
  .ofList [(⟨"a.seng"⟩, "log(1)"), (⟨"b.ceng"⟩, "/* </script> */\n")]

/-- To a style sheet the end tag of a script is text like any other. -/
theorem rawText_of_compile_styleSheet :
    ∃ (d : Document) (c : Compilation) (i j : Import) (ls below : List String),
      Document.parse "import seng from [a.seng] import ceng from [b.ceng]" = .ok d ∧
      compile "import seng from [a.seng] import ceng from [b.ceng]" ⟨""⟩ demoSources.loader
        .default = .ok c ∧
      Config.default.inlineImports = true ∧
      d.ListsHead ([([0], i)] ++ ([1], j) :: []) ∧ j.path = some "b.ceng" ∧
      Dialect.ofPath? ⟨"b.ceng"⟩ = some .style ∧
      demoSources.loader (Path.join ⟨""⟩ ⟨"b.ceng"⟩) = .ok "/* </script> */\n" ∧
      Html.HoldCode Config.default.indentUnit ls (Dialect.style.compile "/* </script> */\n") ∧
      c.html.toList =
        (Text.terminated (Html.linesAbove Config.default.indentUnit
            ((Html.title? c.document.nodes).getD Config.default.defaultTitle) ⟨""⟩
            demoSources.loader [i])).toList ++
          (Html.indented Config.default.indentUnit 2 "<style>").toList ++
          Html.elementText Config.default.indentUnit ls ++ Html.fromEndTag "style" below ∧
      Html.rawText "style"
          (Html.elementText Config.default.indentUnit ls ++ Html.fromEndTag "style" below) =
        (Html.elementText Config.default.indentUnit ls, Html.fromEndTag "style" below) := by
  have hscan : (Scan.ofTokens (Token.tokenize
      "import seng from [a.seng] import ceng from [b.ceng]")).toOption =
      some [.leaf (.importing ⟨some "seng", some "a.seng", none, ⟨0, 25⟩⟩),
        .leaf (.importing ⟨some "ceng", some "b.ceng", none, ⟨26, 51⟩⟩)] := by decide +kernel
  have hparse := Document.parse_eq_ok_iff.2 ⟨_, Document.eq_ok_of_toOption hscan, rfl⟩
  have hload : demoSources.loader (Path.join ⟨""⟩ ⟨"b.ceng"⟩) = .ok "/* </script> */\n" := rfl
  have hnone : Html.hasEndTag "style" (Dialect.style.compile "/* </script> */\n").toList = false := by
    decide +kernel
  obtain ⟨c, hcompile, hblocks⟩ := rawText_of_compile hparse ⟨""⟩ demoSources.loader .default
  have hlists := Document.listsHead_headPlaces ⟨[
    .importing ⟨some "seng", some "a.seng", none, ⟨0, 25⟩⟩,
    .importing ⟨some "ceng", some "b.ceng", none, ⟨26, 51⟩⟩]⟩
  obtain ⟨ls, below, hcode, hhtml, hends, -⟩ :=
    hblocks [_] [] [1] _ "b.ceng" "/* </script> */\n" .style rfl hlists rfl rfl hload
  exact ⟨_, c, _, _, ls, below, hparse, hcompile, rfl, hlists, rfl, rfl, hload, hcode, hhtml,
    hends hnone⟩

/-- A script that prints an end tag is cut off there, and the rest of it becomes text of the page. -/
theorem rawText_of_compile_cut :
    ∃ c : Compilation,
      compile "import seng from [a.seng]" ⟨""⟩
        (Sources.ofList [(⟨"a.seng"⟩, "log(\"</script>\")")]).loader .default = .ok c ∧
      c.html = Text.terminated (Html.linesToTitle "  " "ENG Page") ++ "    <script>" ++
        "\n      console.log(\"</script>\");\n    " ++
        "</script>\n  </head>\n  <body>\n  </body>\n</html>" ∧
      Html.rawText "script" ("\n      console.log(\"</script>\");\n    " ++
          "</script>\n  </head>\n  <body>\n  </body>\n</html>").toList =
        ("\n      console.log(\"".toList,
          ("</script>\");\n    " ++
            "</script>\n  </head>\n  <body>\n  </body>\n</html>").toList) := by
  have hscan : (Scan.ofTokens (Token.tokenize "import seng from [a.seng]")).toOption =
      some [.leaf (.importing ⟨some "seng", some "a.seng", none, ⟨0, 25⟩⟩)] := by decide +kernel
  have hparse := Document.parse_eq_ok_iff.2 ⟨_, Document.eq_ok_of_toOption hscan, rfl⟩
  exact ⟨_, compile_eq_ok_iff.2 ⟨_, hparse, rfl⟩, by decide +kernel, by decide +kernel⟩

end EnglishPages
