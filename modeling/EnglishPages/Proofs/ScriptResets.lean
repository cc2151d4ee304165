import EnglishPages.Proofs.BlockShape

/-!
A function and a class start a script afresh. Their lines close every block that is open, whatever
the lines before have left, and are read alike with and without a class around them. So a script
may be cut before such a line: the parts give the same JavaScript one by one as joined.
-/

namespace EnglishPages

namespace Script

open Text

/-- A line that starts with the keyword, in any case, and after white space has a name. What comes
behind the name is free. -/
def Names (keyword : String) (line : List Char) : Prop :=
  ∃ word blanks name rest, line = word ++ (blanks ++ (name ++ rest)) ∧
    word.map foldCase = keyword.toList ∧
    blanks ≠ [] ∧ (∀ c ∈ blanks, isBlank c = true) ∧
    name ≠ [] ∧ ∀ c ∈ name, isWord c = true

/-- The line of a function, or that of a class which does not open a block of its own. -/
def StartsAfresh (line : List Char) : Prop :=
  Names "function" line ∨ Names "class" line ∧ line.getLast? ≠ some '{'

theorem Names.readers {keyword : String} {line : List Char} (h : Names keyword line) :
    ∃ header name after, afterLeading? keyword line = some header ∧
      word? header = some (name, after) := by
  obtain ⟨word, blanks, name, rest, rfl, hword, hblanks, hblank, hname, hall⟩ := h
  obtain ⟨b, blanks, rfl⟩ := List.exists_cons_of_ne_nil hblanks
  obtain ⟨c, name, rfl⟩ := List.exists_cons_of_ne_nil hname
  obtain ⟨hb, hblanks⟩ := List.forall_mem_cons.1 hblank
  have hc : isWord c = true := hall c List.mem_cons_self
  have htrim : trimStart (blanks ++ (c :: name ++ rest)) = c :: name ++ rest := by
    rw [trimStart_append_of_blank blanks _ (List.all_eq_true.2 hblanks), trimStart,
      List.cons_append, List.dropWhile_cons_of_neg (by simp [isBlank_of_isWord hc])]
  have hheader : afterLeading? keyword (word ++ (b :: blanks ++ (c :: name ++ rest))) =
      some (c :: name ++ rest) := by
    rw [afterLeading?, afterKeyword?_append hword, Option.bind_eq_bind, Option.bind_some,
      List.cons_append, afterBlanks?, if_pos hb, htrim]
  refine ⟨_, c :: (name ++ rest).takeWhile isWord, (name ++ rest).dropWhile isWord, hheader, ?_⟩
  simp only [word?, run?, List.cons_append, List.takeWhile_cons_of_pos hc,
    List.dropWhile_cons_of_pos hc]

namespace Statement

variable {line : List Char}

theorem blank?_of_afterLeading? {keyword : String} {rest : List Char}
    (h : afterLeading? keyword line = some rest) : blank? line = none := by
  cases line with
  | nil =>
      obtain ⟨between, hkeyword, hblanks⟩ := Option.bind_eq_some_iff.1 h
      obtain rfl := List.eq_nil_of_suffix_nil (afterKeyword?_suffix hkeyword)
      cases hblanks
  | cons c line => rfl

theorem read_of_function (h : Names "function" line) :
    ∃ name parameters, ∀ inClassBody, read inClassBody line = .functionHeader name parameters := by
  obtain ⟨header, name, after, hheader, hname⟩ := h.readers
  refine ⟨String.ofList name, parameters after, fun inClassBody => ?_⟩
  have hblank : blank? line = none := blank?_of_afterLeading? hheader
  have hfunction : function? line =
      some (.functionHeader (String.ofList name) (parameters after)) := by
    simp [function?, hheader, hname]
  simp [read, rules, hblank, hfunction]

theorem isTopLevel_of_class (h : Names "class" line) : isTopLevel line = true := by
  obtain ⟨word, blanks, name, rest, rfl, hword, -⟩ := h
  simp only [isTopLevel, List.any_cons, afterKeyword?_append hword, Option.isSome_some,
    Bool.true_or, Bool.or_true]

theorem function?_of_class (h : Names "class" line) : function? line = none := by
  obtain ⟨word, blanks, name, rest, rfl, hword, -⟩ := h
  cases word with
  | nil => cases hword
  | cons c word =>
      have hc : foldCase c = 'c' := (List.cons.inj hword).1
      have hkeyword :
          afterLeading? "function" (c :: word ++ (blanks ++ (name ++ rest))) = none := by
        simp [afterLeading?, afterKeyword?, hc]
      rw [function?, hkeyword]
      rfl

theorem read_of_class (h : Names "class" line) (hend : line.getLast? ≠ some '{') :
    ∃ name, read false line = .classHeader name := by
  obtain ⟨header, name, after, hheader, hname⟩ := h.readers
  refine ⟨String.ofList name, ?_⟩
  have hblank : blank? line = none := blank?_of_afterLeading? hheader
  have hfunction : function? line = none := function?_of_class h
  have hmethod : method? false line = none := by simp [method?]
  have hexplicit : explicit? line = none := by
    cases hlast : line.getLast? with
    | none => simp [explicit?, endsWithAny, hlast]
    | some c => simp_all [explicit?, endsWithAny]
  have hclass : class? line = some (.classHeader (String.ofList name)) := by
    simp [class?, hheader, hname]
  simp [read, rules, hblank, hfunction, hmethod, hexplicit, hclass]

end Statement

namespace BlockStack

variable {line : List Char}

theorem inClassBody_leaving (htop : Statement.isTopLevel line = true) (s : BlockStack) :
    (s.leaving line).1.inClassBody = false := by
  have hclass : (s.leaving line).1.contains .classBody = false := by
    simpa [contains] using classBody_not_mem_leaving (s := s) htop
  simp [inClassBody, hclass]

theorem perform_of_startsAfresh (h : StartsAfresh line) :
    ∃ st k header, (∀ s : BlockStack, s.statement line = st) ∧
      ∀ s : BlockStack, s.perform st = (⟨[k]⟩, s.closeAll.2 ++ [header]) := by
  rcases h with hfunction | ⟨hclass, hend⟩
  · obtain ⟨name, parameters, hread⟩ := Statement.read_of_function hfunction
    exact ⟨_, .function, _, fun s => hread _, fun s => rfl⟩
  · obtain ⟨name, hread⟩ := Statement.read_of_class hclass hend
    refine ⟨.classHeader name, .classBody, _, fun s => ?_, fun s => rfl⟩
    rw [statement, inClassBody_leaving (Statement.isTopLevel_of_class hclass) s, hread]

theorem leaving_closeAll (s : BlockStack) (line : List Char) :
    (s.leaving line).2 ++ (s.leaving line).1.closeAll.2 = s.closeAll.2 := by
  unfold leaving
  split
  · exact List.append_nil _
  · rfl

theorem step_of_startsAfresh (h : StartsAfresh line) (s : BlockStack) :
    s.step line = ((empty.step line).1, s.closeAll.2 ++ (empty.step line).2) := by
  obtain ⟨st, k, header, hstatement, hperform⟩ := perform_of_startsAfresh h
  have hstep : ∀ s : BlockStack, s.step line = (⟨[k]⟩, s.closeAll.2 ++ [header]) := by
    intro s
    rw [step_eq, hstatement, hperform, ← List.append_assoc, leaving_closeAll]
  rw [hstep, hstep]
  rfl

theorem run_append_of_startsAfresh (h : StartsAfresh line) (ls rest : List (List Char)) :
    empty.run (ls ++ line :: rest) = empty.run ls ++ empty.run (line :: rest) := by
  have hclosed : empty.run ls = empty.written ls ++ (empty.after ls).closeAll.2 := by
    have hrun := run_append empty ls []
    rwa [List.append_nil] at hrun
  rw [run_append, run_cons, step_of_startsAfresh h, hclosed, run_cons]
  simp only [List.append_assoc]

end BlockStack

theorem processedLines_append {a b : List Char}
    (h : expandIdioms (a ++ '\n' :: b) = expandIdioms a ++ '\n' :: expandIdioms b) :
    processedLines (a ++ '\n' :: b) = processedLines a ++ processedLines b := by
  rw [processedLines, h, lines, pieces_append, List.map_append]
  rfl

/-- Two sources joined by a newline become the scripts of both one after the other, if no idiom
reaches over the join and the second starts with the line of a function or of a class. -/
theorem toJavaScript_append {a b : String} (ha : Verbatim.body? a.toList = none)
    (hb : Verbatim.body? b.toList = none)
    (hidioms : expandIdioms (a.toList ++ '\n' :: b.toList) =
      expandIdioms a.toList ++ '\n' :: expandIdioms b.toList)
    (hline : ∃ line ∈ (processedLines b.toList).head?, StartsAfresh line) :
    toJavaScript (a ++ "\n" ++ b) = toJavaScript a ++ toJavaScript b := by
  obtain ⟨line, hhead, hafresh⟩ := hline
  obtain ⟨rest, hlines⟩ := List.head?_eq_some_iff.1 hhead
  have hsource : (a ++ "\n" ++ b).toList = a.toList ++ '\n' :: b.toList := by simp
  have hjoined : Verbatim.body? (a ++ "\n" ++ b).toList = none := by
    rw [hsource]
    exact Verbatim.body?_append ha hb
  apply String.ext
  rw [toJavaScript_of_none hjoined, toJavaScript_of_none ha, toJavaScript_of_none hb, hsource,
    processedLines_append hidioms, hlines, BlockStack.run_append_of_startsAfresh hafresh,
    terminated_append, String.toList_append]

/-- The first source leaves a class, a method and an alternative open. -/
theorem toJavaScript_append_open_class :
    (BlockStack.empty.after (processedLines "class A\nm()\nwhen (x)\nelse".toList)).kinds =
        [.alternative, .method, .classBody] ∧
      processedLines "Class B -- b\nm()".toList = ["Class B".toList, "m()".toList] ∧
      toJavaScript ("class A\nm()\nwhen (x)\nelse" ++ "\n" ++ "Class B -- b\nm()") =
        toJavaScript "class A\nm()\nwhen (x)\nelse" ++ toJavaScript "Class B -- b\nm()" := by
  have hclass : StartsAfresh "Class B".toList :=
    .inr ⟨⟨"Class".toList, [' '], ['B'], [], by decide, by decide, by decide,
      List.all_eq_true.1 (by decide), by decide, List.all_eq_true.1 (by decide)⟩, by decide⟩
  refine ⟨by decide +kernel, by decide +kernel, ?_⟩
  exact toJavaScript_append (by decide +kernel) (by decide +kernel) (by decide +kernel)
    ⟨_, by decide +kernel, hclass⟩

end Script

end EnglishPages
