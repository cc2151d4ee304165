import EnglishPages.Proofs.Braces
import EnglishPages.Proofs.ScriptSteps

/-!
What a statement keeps of the text of its line. A rule cuts the parts of a statement from the line,
and the script has them as they are; so the braces of those parts are braces of the line, in their
order. A brace at the end of a line is never among them: it is the one of a block.
-/

open scoped List

namespace EnglishPages.Script

open Text

def unopened (line : List Char) : List Char :=
  if endsWithAny ['{'] line then line.dropLast else line

theorem dropLast_sublist_unopened (line : List Char) : line.dropLast <+ unopened line := by
  unfold unopened
  split
  · exact List.Sublist.refl _
  · exact List.dropLast_sublist line

theorem eq_append_of_endsWith {line : List Char} (h : endsWithAny ['{'] line = true) :
    line = line.dropLast ++ ['{'] := by
  cases hlast : line.getLast? with
  | none => simp [endsWithAny, hlast] at h
  | some c =>
      obtain rfl : c = '{' := by simpa [endsWithAny, hlast] using h
      obtain ⟨front, rfl⟩ := List.getLast?_eq_some_iff.1 hlast
      simp

namespace Statement

/-- The text that a statement takes over from its line as it is; for a line that opens a block by a
brace of its own, all but that brace. -/
def taken : Statement → List Char
  | blank => []
  | functionHeader name parameters => name.toList ++ parameters.toList
  | methodHeader _ name parameters => name.toList ++ parameters.toList
  | explicitHeader header => header.toList.dropLast
  | classHeader name => name.toList
  | eventHeader target event parameters => target.toList ++ event.toList ++ parameters.toList
  | conditionalHeader condition => condition.toList
  | alternativeHeader => []
  | loopHeader condition => condition.toList
  | simple code => code.toList

structure Takes (line : List Char) (st : Statement) : Prop where
  braces_sublist : braces st.taken <+ braces (unopened line)
  explicit : ∀ header, st = .explicitHeader header → header.toList.getLast? = some '{'

theorem parameters_sublist (cs : List Char) : (parameters cs).toList <+ cs.dropLast := by
  unfold parameters
  split
  · next inside after heq =>
      obtain ⟨opened, hopened, hinside⟩ := Option.bind_eq_some_iff.1 heq
      have htrim : trimStart cs = ('(' :: inside) ++ ')' :: after := by
        rw [after?_eq_some hopened, splitFirst?_append hinside, List.cons_append]
      have hline := dropLast_sublist_of_suffix (trimStart_suffix cs)
      rw [htrim, List.dropLast_append_cons] at hline
      rw [String.toList_ofList]
      exact (trim_sublist inside).trans <| (List.sublist_cons_self '(' inside).trans <|
        (List.sublist_append_left _ _).trans hline
  · exact List.nil_sublist _

theorem inside_sublist {cs inside after : List Char} (h : enclosed? cs = some (inside, after)) :
    inside <+ cs := by
  have hcs := (trimStart_suffix cs).sublist
  rw [enclosed?_eq_some h] at hcs
  exact (List.sublist_cons_self '(' inside).trans ((List.sublist_append_left _ _).trans hcs)

theorem condition_sublist {keyword condition : String} {line : List Char}
    (h : condition? keyword line = some condition) : condition.toList <+ line := by
  obtain ⟨rest, inside, after, hrest, hinside, rfl⟩ := condition?_eq_some h
  rw [String.toList_ofList]
  exact (trim_sublist inside).trans <|
    (inside_sublist hinside).trans (afterKeyword?_suffix hrest).sublist

theorem withoutSemicolon_sublist (cs : List Char) : withoutSemicolon (trim cs) <+ cs := by
  refine (trimEnd_sublist _).trans ((List.Sublist.trans ?_ (trim_sublist cs)))
  split
  · exact List.dropLast_sublist _
  · exact List.Sublist.refl _

theorem braces_word {w : List Char} (h : ∀ c ∈ w, isWord c = true) : braces w = [] :=
  braces_of_braceless (braceless_of_word h)

theorem braces_terminate (line : List Char) : braces (terminate line).toList = braces line := by
  unfold terminate
  split
  · rw [String.toList_ofList]
  · have hsemicolon : braces ";".toList = [] := rfl
    rw [String.toList_append, String.toList_ofList, braces_append, hsemicolon, List.append_nil]

section Rules

variable {inClassBody : Bool} {line : List Char} {st : Statement}

theorem takes_of_earlyRules {rule : List Char → Option Statement}
    (hmem : rule ∈ earlyRules inClassBody) (h : rule line = some st) : Takes line st := by
  simp only [earlyRules, List.mem_cons, List.not_mem_nil, or_false] at hmem
  rcases hmem with rfl | rfl | rfl | rfl
  · obtain ⟨-, rfl⟩ := blank?_eq_some h
    exact ⟨List.nil_sublist _, by simp⟩
  · obtain ⟨header, name, after, hheader, hname, rfl⟩ := function?_eq_some h
    refine ⟨?_, by simp⟩
    have hafter : after <:+ line := (word?_suffix hname).trans (afterLeading?_suffix hheader)
    rw [taken, braces_append, String.toList_ofList, braces_word (word?_all hname), List.nil_append]
    exact ((parameters_sublist after).trans <| (dropLast_sublist_of_suffix hafter).trans <|
      dropLast_sublist_unopened line).filter _
  · obtain ⟨-, isStatic, cs, name, inside, hcs, hsig, rfl⟩ := method?_eq_some h
    refine ⟨?_, by simp⟩
    obtain ⟨rest, between, after, hname, htrim, rfl⟩ := signature?_eq_some hsig
    have hrest := dropLast_sublist_of_suffix <|
      (trimStart_suffix rest).trans <| (word?_suffix hname).trans hcs
    rw [htrim, List.dropLast_append_cons] at hrest
    rw [taken, braces_append, String.toList_ofList, String.toList_ofList,
      braces_word (word?_all hname), List.nil_append]
    exact ((trim_sublist between).trans <| (List.sublist_cons_self '(' between).trans <|
      (List.sublist_append_left _ _).trans <| hrest.trans <|
      dropLast_sublist_unopened line).filter _
  · obtain ⟨hend, rfl⟩ := explicit?_eq_some h
    constructor
    · rw [taken, String.toList_ofList]
      exact (dropLast_sublist_unopened line).filter _
    · intro header hheader
      rw [← (explicitHeader.inj hheader), String.toList_ofList, eq_append_of_endsWith hend]
      simp

theorem braces_taken_of_lateRules {rule : List Char → Option Statement}
    (hmem : rule ∈ lateRules) (h : rule line = some st) :
    braces st.taken <+ braces line ∧ ∀ header, st ≠ .explicitHeader header := by
  simp only [lateRules, List.mem_cons, List.not_mem_nil, or_false] at hmem
  rcases hmem with rfl | rfl | rfl | rfl | rfl | rfl | rfl | rfl | rfl
  · obtain ⟨header, name, after, -, hname, rfl⟩ := class?_eq_some h
    refine ⟨?_, by simp⟩
    rw [taken, String.toList_ofList, braces_word (word?_all hname)]
    exact List.nil_sublist _
  · obtain ⟨header, target, between, rest, event, after, hheader, htarget, hrest, hevent, rfl⟩ :=
      event?_eq_some h
    refine ⟨?_, by simp⟩
    have hafter : after <:+ line :=
      (word?_suffix hevent).trans <| (afterBlanks?_suffix hrest).trans <|
        (word?_suffix htarget).trans (afterLeading?_suffix hheader)
    simp only [taken, braces_append, String.toList_ofList, braces_word (word?_all htarget),
      braces_word (word?_all hevent), List.nil_append]
    exact ((parameters_sublist after).trans <| (List.dropLast_sublist after).trans
      hafter.sublist).filter _
  · obtain ⟨condition, hcondition, rfl⟩ := conditional?_eq_some h
    exact ⟨(condition_sublist hcondition).filter _, by simp⟩
  · obtain rfl := alternative?_eq_some h
    exact ⟨List.nil_sublist _, by simp⟩
  · obtain ⟨condition, hcondition, rfl⟩ := loop?_eq_some h
    exact ⟨(condition_sublist hcondition).filter _, by simp⟩
  · obtain ⟨header, name, after, hheader, hname, hst⟩ := declaration?_eq_some h
    have hword : Braceless name := braceless_of_word (word?_all hname)
    rcases hst with rfl | ⟨value, hvalue, rfl⟩
    · refine ⟨?_, by simp⟩
      simp only [taken, String.toList_append, String.toList_ofList]
      rw [braces_around (by decide) (by decide), braces_of_braceless hword]
      exact List.nil_sublist _
    · refine ⟨?_, by simp⟩
      have hsuffix : '=' :: value <:+ line :=
        hvalue ▸ (trimStart_suffix after).trans ((word?_suffix hname).trans hheader)
      have hfront : Braceless ("let ".toList ++ name ++ " = ".toList) :=
        braceless_append.2 ⟨braceless_append.2 ⟨by decide, hword⟩, by decide⟩
      simp only [taken, String.toList_append, String.toList_ofList]
      rw [braces_around hfront (by decide)]
      exact ((withoutSemicolon_sublist value).trans <| (List.sublist_cons_self '=' value).trans
        hsuffix.sublist).filter _
  · obtain ⟨rest, inside, after, hrest, hinside, rfl⟩ := log?_eq_some h
    refine ⟨?_, by simp⟩
    simp only [taken, String.toList_append, String.toList_ofList]
    rw [braces_around (by decide) (by decide)]
    exact ((trim_sublist inside).trans <| (inside_sublist hinside).trans hrest.sublist).filter _
  · obtain ⟨cs, name, rest, inside, after, hcs, hname, hinside, rfl⟩ := call?_eq_some h
    refine ⟨?_, by simp⟩
    have hfront : Braceless (name ++ "(".toList) :=
      braceless_append.2 ⟨braceless_of_word (word?_all hname), by decide⟩
    simp only [taken, String.toList_append, String.toList_ofList]
    rw [braces_around hfront (by decide)]
    exact ((inside_sublist hinside).trans <| (word?_suffix hname).sublist.trans
      hcs.sublist).filter _
  · obtain ⟨value, hvalue, rfl⟩ := return?_eq_some h
    refine ⟨?_, by simp⟩
    simp only [taken, String.toList_append, String.toList_ofList]
    rw [braces_around (by decide) (by decide)]
    exact ((withoutSemicolon_sublist value).trans hvalue.sublist).filter _

theorem read_takes (inClassBody : Bool) (line : List Char) :
    Takes line (read inClassBody line) := by
  rcases read_cases inClassBody line with ⟨rule, hmem, h⟩ | ⟨-, hend, hlate⟩
  · exact takes_of_earlyRules hmem h
  · have hunopened : unopened line = line := by simp [unopened, hend]
    rcases hlate with ⟨rule, hmem, h⟩ | h
    · obtain ⟨htaken, hexplicit⟩ := braces_taken_of_lateRules hmem h
      refine ⟨?_, fun header hheader => absurd hheader (hexplicit header)⟩
      rw [hunopened]
      exact htaken
    · have htaken : braces (read inClassBody line).taken = braces (unopened line) := by
        rw [h, taken, braces_terminate, hunopened]
      exact ⟨htaken ▸ List.Sublist.refl _, by simp [h]⟩

theorem braces_taken_of_close (inClassBody : Bool) (cs : List Char) :
    braces (read inClassBody ('}' :: cs)).taken = braces (unopened ('}' :: cs)) := by
  have hblank : blank? ('}' :: cs) = none := rfl
  have hfunction : function? ('}' :: cs) = none := rfl
  have hmethod : method? inClassBody ('}' :: cs) = none := rfl
  have hlate : (lateRules.findSome? fun rule => rule ('}' :: cs)) = none := rfl
  have hread : read inClassBody ('}' :: cs) =
      ((explicit? ('}' :: cs)).or (lateRules.findSome? fun rule => rule ('}' :: cs))).getD
        (.simple (terminate ('}' :: cs))) := by
    simp only [read, rules, List.findSome?, hblank, hfunction, hmethod]
    cases explicit? ('}' :: cs) <;> rfl
  rw [hread, hlate, Option.or_none, explicit?, unopened]
  split
  · rw [Option.getD_some, taken, String.toList_ofList]
  · rw [Option.getD_none, taken, braces_terminate]

end Rules

theorem Takes.braces_headerLine {line : List Char} {st : Statement} {k : BlockKind}
    (h : Takes line st) (hk : st.opened? = some k) :
    braces st.headerLine.toList = braces st.taken ++ ['{'] := by
  cases st with
  | blank => simp [opened?] at hk
  | simple code => simp [opened?] at hk
  | functionHeader name parameters =>
      change braces ("function " ++ name ++ "(" ++ parameters ++ ") \x7b").toList = _
      simp [taken, braces]
  | methodHeader isStatic name parameters =>
      change braces ((if isStatic then "static " else "") ++ name ++ "(" ++ parameters ++
        ") \x7b").toList = _
      cases isStatic <;> simp [taken, braces]
  | explicitHeader header =>
      obtain ⟨front, hfront⟩ := List.getLast?_eq_some_iff.1 (h.explicit header rfl)
      change braces header.toList = _
      rw [taken, hfront, List.dropLast_concat, braces_append]
      rfl
  | classHeader name =>
      change braces ("class " ++ name ++ " \x7b").toList = _
      simp [taken, braces]
  | eventHeader target event parameters =>
      change braces (target ++ ".addEventListener('" ++ event ++ "', (" ++ parameters ++
        ") => \x7b").toList = _
      simp [taken, braces]
  | conditionalHeader condition =>
      change braces ("if (" ++ condition ++ ") \x7b").toList = _
      simp [taken, braces]
  | alternativeHeader => rfl
  | loopHeader condition =>
      change braces ("while (" ++ condition ++ ") \x7b").toList = _
      simp [taken, braces]

end Statement

end EnglishPages.Script
