import EnglishPages.Proofs.ScriptComments
import EnglishPages.Proofs.TakenText
import Mathlib.Data.List.Forall2

/-!
The lines of a script. Each line of the source writes the closing lines of the blocks that it ends
and, unless it is blank, one line of its own, which has a semicolon or a brace at its end and no line
end inside. So the lines of the script stand for the lines of the source one by one, and none of them
is blank.
-/

namespace EnglishPages

namespace Script

open Text

structure IsScriptLine (l : String) : Prop where
  ne_empty : l ≠ ""
  ended : endsWithAny [';', '{', '}'] l.toList = true
  oneLine : '\n' ∉ l.toList

theorem IsScriptLine.of_ended {l : String} (hended : endsWithAny [';', '{', '}'] l.toList = true)
    (hline : '\n' ∉ l.toList) : IsScriptLine l where
  ne_empty := by
    rintro rfl
    cases hended
  ended := hended
  oneLine := hline

theorem isScriptLine_closers (ks : List BlockKind) :
    ∀ l ∈ ks.map BlockKind.closer, IsScriptLine l := by
  intro l hl
  obtain ⟨k, -, rfl⟩ := List.mem_map.1 hl
  cases k <;> exact .of_ended (by decide) (by decide)

namespace Statement

structure Terminated (line : List Char) (st : Statement) : Prop where
  code : ∀ code, st = .simple code → endsWithAny [';', '{', '}'] code.toList = true
  oneLine : '\n' ∉ line → '\n' ∉ st.taken

section Rules

variable {inClassBody : Bool} {line : List Char} {st : Statement}

theorem newline_not_mem_word {cs w rest : List Char} (h : word? cs = some (w, rest)) : '\n' ∉ w :=
  not_mem_of_all (word?_all h) isWord_edges.2

theorem newline_not_mem_parameters {cs : List Char} (hcs : cs <:+ line) (hline : '\n' ∉ line) :
    '\n' ∉ (parameters cs).toList := fun hmem =>
  hline (hcs.mem (List.dropLast_subset cs ((parameters_sublist cs).mem hmem)))

theorem terminated_of_earlyRules {rule : List Char → Option Statement}
    (hmem : rule ∈ earlyRules inClassBody) (h : rule line = some st) : Terminated line st := by
  simp only [earlyRules, List.mem_cons, List.not_mem_nil, or_false] at hmem
  rcases hmem with rfl | rfl | rfl | rfl
  · obtain ⟨-, rfl⟩ := blank?_eq_some h
    exact ⟨by simp, fun _ => List.not_mem_nil⟩
  · obtain ⟨header, name, after, hheader, hname, rfl⟩ := function?_eq_some h
    refine ⟨by simp, fun hline => ?_⟩
    have hafter : after <:+ line := (word?_suffix hname).trans (afterLeading?_suffix hheader)
    simp [taken, newline_not_mem_word hname, newline_not_mem_parameters hafter hline]
  · obtain ⟨-, isStatic, cs, name, inside, hcs, hsig, rfl⟩ := method?_eq_some h
    refine ⟨by simp, fun hline => ?_⟩
    obtain ⟨rest, between, after, hname, htrim, rfl⟩ := signature?_eq_some hsig
    have hbetween : '\n' ∉ trim between := by
      intro hmem
      have hrest := (trimStart_suffix rest).trans ((word?_suffix hname).trans hcs)
      rw [htrim] at hrest
      exact hline (hrest.mem (by simp [mem_of_mem_trim hmem]))
    simp [taken, newline_not_mem_word hname, hbetween]
  · obtain ⟨-, rfl⟩ := explicit?_eq_some h
    refine ⟨by simp, fun hline hmem => hline ?_⟩
    rw [taken, String.toList_ofList] at hmem
    exact List.dropLast_subset line hmem

theorem terminated_of_code {front : String} {inside : List Char} (hinside : inside.Sublist line)
    {code back : String} (hcode : code = front ++ String.ofList inside ++ back)
    (hfront : '\n' ∉ front.toList) (hback : '\n' ∉ back.toList)
    (hended : endsWithAny [';', '{', '}'] back.toList = true) : Terminated line (.simple code) := by
  subst hcode
  constructor
  · rintro _ ⟨⟩
    rw [String.toList_append]
    exact endsWithAny_append hended
  · intro hline
    have hnone : '\n' ∉ inside := fun hmem => hline (hinside.mem hmem)
    simp [taken, hfront, hnone, hback]

theorem terminated_of_lateRules {rule : List Char → Option Statement} (hmem : rule ∈ lateRules)
    (h : rule line = some st) : Terminated line st := by
  simp only [lateRules, List.mem_cons, List.not_mem_nil, or_false] at hmem
  rcases hmem with rfl | rfl | rfl | rfl | rfl | rfl | rfl | rfl | rfl
  · obtain ⟨header, name, after, -, hname, rfl⟩ := class?_eq_some h
    refine ⟨by simp, fun _ => ?_⟩
    simp [taken, newline_not_mem_word hname]
  · obtain ⟨header, target, between, rest, event, after, hheader, htarget, hrest, hevent, rfl⟩ :=
      event?_eq_some h
    refine ⟨by simp, fun hline => ?_⟩
    have hafter : after <:+ line :=
      (word?_suffix hevent).trans <| (afterBlanks?_suffix hrest).trans <|
        (word?_suffix htarget).trans (afterLeading?_suffix hheader)
    simp [taken, newline_not_mem_word htarget, newline_not_mem_word hevent,
      newline_not_mem_parameters hafter hline]
  · obtain ⟨condition, hcondition, rfl⟩ := conditional?_eq_some h
    exact ⟨by simp, fun hline hmem => hline ((condition_sublist hcondition).mem hmem)⟩
  · obtain rfl := alternative?_eq_some h
    exact ⟨by simp, fun _ => List.not_mem_nil⟩
  · obtain ⟨condition, hcondition, rfl⟩ := loop?_eq_some h
    exact ⟨by simp, fun hline hmem => hline ((condition_sublist hcondition).mem hmem)⟩
  · obtain ⟨header, name, after, hheader, hname, hst⟩ := declaration?_eq_some h
    have hword := newline_not_mem_word hname
    rcases hst with rfl | ⟨value, hvalue, rfl⟩
    · have hsublist : name.Sublist line :=
        (List.sublist_append_left name after).trans (run?_append hname ▸ hheader.sublist)
      exact terminated_of_code hsublist rfl (by decide) (by decide) (by decide)
    · have hsuffix : '=' :: value <:+ line :=
        hvalue ▸ (trimStart_suffix after).trans ((word?_suffix hname).trans hheader)
      refine terminated_of_code ?_ rfl (by simp [hword]) (by decide) (by decide)
      exact (withoutSemicolon_sublist value).trans <| (List.sublist_cons_self '=' value).trans
        hsuffix.sublist
  · obtain ⟨rest, inside, after, hrest, hinside, rfl⟩ := log?_eq_some h
    refine terminated_of_code ?_ rfl (by decide) (by decide) (by decide)
    exact (trim_sublist inside).trans ((inside_sublist hinside).trans hrest.sublist)
  · obtain ⟨cs, name, rest, inside, after, hcs, hname, hinside, rfl⟩ := call?_eq_some h
    refine terminated_of_code ?_ rfl (by simp [newline_not_mem_word hname]) (by decide)
      (by decide)
    exact (inside_sublist hinside).trans ((word?_suffix hname).sublist.trans hcs.sublist)
  · obtain ⟨value, hvalue, rfl⟩ := return?_eq_some h
    refine terminated_of_code ?_ rfl (by decide) (by decide) (by decide)
    exact (withoutSemicolon_sublist value).trans hvalue.sublist

theorem terminated_terminate (line : List Char) : Terminated line (.simple (terminate line)) := by
  unfold terminate
  split
  · next hended =>
      constructor
      · rintro _ ⟨⟩
        rwa [String.toList_ofList]
      · simp [taken]
  · have hcode : String.ofList line ++ ";" = "" ++ String.ofList line ++ ";" := by simp
    exact terminated_of_code (List.Sublist.refl line) hcode (by decide) (by decide) (by decide)

theorem read_terminated (inClassBody : Bool) (line : List Char) :
    Terminated line (read inClassBody line) := by
  rcases read_cases inClassBody line with ⟨rule, hmem, h⟩ | ⟨-, -, ⟨rule, hmem, h⟩ | h⟩
  · exact terminated_of_earlyRules hmem h
  · exact terminated_of_lateRules hmem h
  · exact h ▸ terminated_terminate line

end Rules

theorem isScriptLine_headerLine {line : List Char} {st : Statement} {k : BlockKind}
    (htakes : Takes line st) (hk : st.opened? = some k) (hline : '\n' ∉ st.taken) :
    IsScriptLine st.headerLine := by
  have hheader {front back : String} (hback : endsWithAny [';', '{', '}'] back.toList = true)
      (hnone : '\n' ∉ (front ++ back).toList) : IsScriptLine (front ++ back) := by
    refine .of_ended ?_ hnone
    rw [String.toList_append]
    exact endsWithAny_append hback
  cases st with
  | blank => simp [opened?] at hk
  | simple code => simp [opened?] at hk
  | functionHeader name parameters =>
      change IsScriptLine ("function " ++ name ++ "(" ++ parameters ++ ") \x7b")
      exact hheader (by decide) (by simpa [taken] using hline)
  | methodHeader isStatic name parameters =>
      change IsScriptLine ((if isStatic then "static " else "") ++ name ++ "(" ++ parameters ++
        ") \x7b")
      refine hheader (by decide) ?_
      cases isStatic <;> simpa [taken] using hline
  | explicitHeader header =>
      obtain ⟨front, hfront⟩ := List.getLast?_eq_some_iff.1 (htakes.explicit header rfl)
      change IsScriptLine header
      rw [taken, hfront, List.dropLast_concat] at hline
      refine .of_ended ?_ ?_
      · rw [hfront]
        exact endsWithAny_append (by decide)
      · simpa [hfront] using hline
  | classHeader name =>
      change IsScriptLine ("class " ++ name ++ " \x7b")
      exact hheader (by decide) (by simpa [taken] using hline)
  | eventHeader target event parameters =>
      change IsScriptLine (target ++ ".addEventListener('" ++ event ++ "', (" ++ parameters ++
        ") => \x7b")
      exact hheader (by decide) (by simpa [taken] using hline)
  | conditionalHeader condition =>
      change IsScriptLine ("if (" ++ condition ++ ") \x7b")
      exact hheader (by decide) (by simpa [taken] using hline)
  | alternativeHeader => exact .of_ended (by decide) (by decide)
  | loopHeader condition =>
      change IsScriptLine ("while (" ++ condition ++ ") \x7b")
      exact hheader (by decide) (by simpa [taken] using hline)

theorem lines_of_opened {st : Statement} {k : BlockKind} (hk : st.opened? = some k) :
    (BlockStack.empty.perform st).2 = [st.headerLine] := by
  cases st with
  | blank => simp [opened?] at hk
  | simple code => simp [opened?] at hk
  | _ => rfl

end Statement

/-- What a line of the source may write: the closing lines of some blocks, of one at most if it is
blank, and if it is not, then one line more. That one is the line of the statement that it is read
as, where an alternative may also follow on the brace of its conditional. -/
def Contributes (line : List Char) (ls : List String) : Prop :=
  ∃ (inClassBody : Bool) (closed : List BlockKind) (own : List String),
    ls = closed.map BlockKind.closer ++ own ∧
    (line = [] → closed.length ≤ 1 ∧ own = []) ∧ (line ≠ [] → own.length = 1) ∧
    (own = (BlockStack.empty.perform (Statement.read inClassBody line)).2 ∨
      Statement.read inClassBody line = .alternativeHeader ∧ own = ["\x7d else \x7b"])

namespace BlockStack

theorem contributes_step (s : BlockStack) (line : List Char) : Contributes line (s.step line).2 := by
  have hperforms := s.performs_step line
  have hline {st : Statement} (hst : s.statement line = st) (hne : st ≠ .blank) : line ≠ [] := by
    rintro rfl
    exact hne hst.symm
  generalize s.kinds = ks, (s.step line).1.kinds = ks', (s.step line).2 = ls at hperforms
  refine ⟨(s.leaving line).1.inClassBody, ?_⟩
  cases hperforms with
  | blank ks h =>
      have hfits := s.statement_fits line
      rw [h] at hfits
      refine ⟨ks.take 1, [], by simp, fun _ => ⟨List.length_take_le 1 ks, rfl⟩,
        fun hne => absurd hfits hne, .inl ?_⟩
      exact (congrArg (fun st => (empty.perform st).2) h).symm
  | opening closed kept hopen =>
      have hne : line ≠ [] := hline rfl fun hblank => by simp [hblank, Statement.opened?] at hopen
      exact ⟨closed, _, rfl, fun hnil => absurd hnil hne, fun _ => rfl,
        .inl (Statement.lines_of_opened hopen).symm⟩
  | chaining kept h =>
      have hne : line ≠ [] := hline h (by simp)
      exact ⟨[], _, rfl, fun hnil => absurd hnil hne, fun _ => rfl, .inr ⟨h, rfl⟩⟩
  | code closed kept h =>
      have hne : line ≠ [] := hline h (by simp)
      refine ⟨closed, _, rfl, fun hnil => absurd hnil hne, fun _ => rfl, .inl ?_⟩
      exact (congrArg (fun st => (empty.perform st).2) h).symm

theorem isScriptLine_step (s : BlockStack) {line : List Char} (hline : '\n' ∉ line) :
    ∀ l ∈ (s.step line).2, IsScriptLine l := by
  have hperforms := s.performs_step line
  have htakes : Statement.Takes line (s.statement line) := Statement.read_takes _ line
  have hterminated : Statement.Terminated line (s.statement line) := Statement.read_terminated _ line
  generalize s.kinds = ks, (s.step line).1.kinds = ks', (s.step line).2 = ls at hperforms
  cases hperforms with
  | blank ks h => exact isScriptLine_closers _
  | opening closed kept hopen =>
      refine List.forall_mem_append.2 ⟨isScriptLine_closers closed, List.forall_mem_singleton.2 ?_⟩
      exact Statement.isScriptLine_headerLine htakes hopen (hterminated.oneLine hline)
  | chaining kept h =>
      exact List.forall_mem_singleton.2 (.of_ended (by decide) (by decide))
  | @code closed kept code h =>
      refine List.forall_mem_append.2 ⟨isScriptLine_closers closed, List.forall_mem_singleton.2 ?_⟩
      have hnone := hterminated.oneLine hline
      rw [h] at hnone
      exact .of_ended (hterminated.code code h) hnone

theorem exists_contributions (s : BlockStack) (ls : List (List Char)) :
    ∃ parts, List.Forall₂ Contributes ls parts ∧
      s.run ls = parts.flatten ++ (s.after ls).kinds.map BlockKind.closer := by
  induction ls generalizing s with
  | nil => exact ⟨[], .nil, rfl⟩
  | cons line rest ih =>
      obtain ⟨parts, hparts, hrun⟩ := ih (s.step line).1
      refine ⟨(s.step line).2 :: parts, .cons (s.contributes_step line) hparts, ?_⟩
      rw [run_cons, hrun, after_cons, List.flatten_cons, List.append_assoc]

theorem isScriptLine_run (s : BlockStack) {ls : List (List Char)} (h : ∀ line ∈ ls, '\n' ∉ line) :
    ∀ l ∈ s.run ls, IsScriptLine l := by
  induction ls generalizing s with
  | nil => exact isScriptLine_closers s.kinds
  | cons line rest ih =>
      obtain ⟨hline, hrest⟩ := List.forall_mem_cons.1 h
      exact List.forall_mem_append.2 ⟨s.isScriptLine_step hline, ih _ hrest⟩

end BlockStack

theorem newline_not_mem_processedLines (source : List Char) :
    ∀ line ∈ processedLines source, '\n' ∉ line := by
  intro line hline
  obtain ⟨piece, hpiece, rfl⟩ := List.mem_map.1 hline
  intro hmem
  refine not_mem_of_mem_pieces hpiece ?_
  rw [← withoutComment_append_commentOf piece]
  exact List.mem_append_left _ (mem_of_mem_trim hmem)

/-- The script of a source, line by line: what each line of the source writes, in order, and the
closing lines of the blocks that are open at the end. Every line of it is one that can stand in a
script, and has its own newline; cut at newlines, the text has these lines and no others. -/
theorem toJavaScript_lines {source : String} (h : Verbatim.body? source.toList = none) :
    ∃ parts,
      List.Forall₂ Contributes (processedLines source.toList) parts ∧
      scriptLines source.toList = parts.flatten ++
        (BlockStack.empty.after (processedLines source.toList)).kinds.map BlockKind.closer ∧
      toJavaScript source = terminated (scriptLines source.toList) ∧
      (∀ l ∈ scriptLines source.toList, IsScriptLine l) ∧
      lines (toJavaScript source).toList =
        (scriptLines source.toList).map String.toList ++ [[]] := by
  obtain ⟨parts, hparts, hrun⟩ := BlockStack.empty.exists_contributions (processedLines source.toList)
  have hlines : ∀ l ∈ scriptLines source.toList, IsScriptLine l :=
    BlockStack.empty.isScriptLine_run (newline_not_mem_processedLines source.toList)
  have hscript : toJavaScript source = terminated (scriptLines source.toList) :=
    toJavaScript_of_none h
  refine ⟨parts, hparts, hrun, hscript, hlines, ?_⟩
  rw [hscript]
  exact lines_terminated fun l hl => (hlines l hl).oneLine

/-- A chained alternative, and a blank line that closes it. -/
theorem toJavaScript_lines_alternative :
    toJavaScript "when (x)\nelse\n\nf() -- f" = "if (x) \x7b\n\x7d else \x7b\n\x7d\nf();\n" ∧
      ∃ parts, List.Forall₂ Contributes ["when (x)".toList, "else".toList, [], "f()".toList] parts ∧
        scriptLines "when (x)\nelse\n\nf() -- f".toList = parts.flatten := by
  have hbody : Verbatim.body? "when (x)\nelse\n\nf() -- f".toList = none := by decide +kernel
  have hlines : processedLines "when (x)\nelse\n\nf() -- f".toList =
      ["when (x)".toList, "else".toList, [], "f()".toList] := by
    decide +kernel
  have hclosed : (BlockStack.empty.after
      ["when (x)".toList, "else".toList, [], "f()".toList]).kinds = [] := by
    decide +kernel
  obtain ⟨parts, hparts, hscript, -⟩ := toJavaScript_lines hbody
  rw [hlines] at hparts hscript
  rw [hclosed, List.map_nil, List.append_nil] at hscript
  exact ⟨by decide +kernel, parts, hparts, hscript⟩

end Script

end EnglishPages
