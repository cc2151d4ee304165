import EnglishPages.Proofs.StyleLines
import Mathlib.Data.List.Basic

/-!
Braces of a style sheet. A rule keeps the braces of the line that it rewrites, all but one: the rule
for states writes the line anew up to the brace behind the state and drops what follows. So the braces
of the CSS are those of the source, each line taken up to the brace of its state, and they are all the
braces of the source just if no line has a brace behind that one. A rule whose body stands in the same
line as its state loses the body.
-/

namespace EnglishPages.Style

open Text

def behindState (line : List Char) : List Char :=
  match splitState? line with
  | some (before, _) => ((splitFirst? '{' (line.drop before.length)).map Prod.snd).getD []
  | none => []

/-- What is dropped from a line: all behind the brace of its state. The state is looked for when the
line has lost its `for` and has its selector. -/
def dropped (line : List Char) : List Char :=
  behindState (withSelector (withoutFor line))

def upToState (line : List Char) : List Char :=
  line.take (line.length - (dropped line).length)

theorem behindState_of_splitState? {line before name front after : List Char}
    (h : splitState? line = some (before, name)) (hline : line = before ++ (front ++ '{' :: after))
    (hfront : Braceless front) : behindState line = after := by
  have hdrop : line.drop before.length = front ++ '{' :: after := by
    rw [hline, List.drop_left]
  have hopen : '{' ∉ front := fun hmem => (hfront _ hmem).1 rfl
  simp only [behindState, h, hdrop, splitFirst?_of_not_mem hopen, Option.map_some, Option.getD_some]

theorem behindState_cases (line : List Char) :
    behindState line = [] ∨ ∃ front, line = front ++ '{' :: behindState line := by
  cases hsplit : splitState? line with
  | none =>
      left
      simp only [behindState, hsplit]
  | some state =>
      obtain ⟨front, after, hline, -, hfront, -⟩ := splitState?_eq_some hsplit
      right
      refine ⟨state.1 ++ front, ?_⟩
      rw [behindState_of_splitState? hsplit hline hfront, List.append_assoc]
      exact hline

/-- The rules before the one for states only change the line in front of its first brace. -/
theorem dropped_suffix (line : List Char) : dropped line <:+ line := by
  have hfor : withoutFor line <:+ line := by
    rcases withoutFor_cases line with hsame | ⟨front, hfront, -⟩
    · simp [hsame]
    · exact ⟨front, hfront.symm⟩
  refine List.IsSuffix.trans ?_ hfor
  rw [dropped]
  rcases behindState_cases (withSelector (withoutFor line)) with hnil | ⟨before, hbefore⟩
  · rw [hnil]
    exact List.nil_suffix
  · rcases withSelector_cases (withoutFor line) with
      hsame | ⟨sigil, front, name, rest, hline, hout, hsigil, -, hname, -⟩
    · rw [hsame] at hbefore ⊢
      exact ⟨before ++ ['{'], by simpa using hbefore.symm⟩
    · have hsplit : before ++ '{' :: behindState (withSelector (withoutFor line)) =
          (sigil :: name) ++ rest := by rw [← hbefore, hout, List.cons_append]
      rcases append_cons_eq_append hsplit with ⟨more, hin⟩ | ⟨between, -, hrest⟩
      · have hselector : Braceless (sigil :: name) := by
          refine List.forall_mem_cons.2 ⟨?_, hname⟩
          rcases hsigil with rfl | rfl
          · decide
          · decide
        exact absurd rfl (hselector '{' (by rw [hin]; simp)).1
      · have hsuffix : rest <:+ withoutFor line := ⟨front ++ name, by simp [hline]⟩
        exact List.IsSuffix.trans ⟨between ++ ['{'], by simpa using hrest.symm⟩ hsuffix

theorem upToState_append_dropped (line : List Char) : upToState line ++ dropped line = line := by
  have hdrop := List.suffix_iff_eq_drop.1 (dropped_suffix line)
  conv_lhs => rw [hdrop, upToState]
  exact List.take_append_drop _ line

theorem braces_withoutFor (line : List Char) : braces (withoutFor line) = braces line := by
  rcases withoutFor_cases line with hsame | ⟨front, hline, hfront, -⟩
  · rw [hsame]
  · conv_rhs => rw [hline, braces_append, braces_of_braceless hfront, List.nil_append]

theorem braces_withSelector (line : List Char) : braces (withSelector line) = braces line := by
  rcases withSelector_cases line with
    hsame | ⟨sigil, front, name, rest, hline, hout, hsigil, hfront, -⟩
  · rw [hsame]
  · have hsigil : braces [sigil] = [] := by
      rcases hsigil with rfl | rfl
      · rfl
      · rfl
    rw [hout, hline, ← List.singleton_append, braces_append, braces_append front, hsigil,
      braces_of_braceless hfront]

theorem braces_withPseudoClass (line : List Char) :
    braces (withPseudoClass line) ++ braces (behindState line) = braces line := by
  rcases withPseudoClass_cases line with ⟨hsplit, hsame⟩ | ⟨before, name, hsplit, hout⟩
  · simp only [hsame, behindState, hsplit]
    exact List.append_nil _
  · obtain ⟨front, after, hline, -, hfront, hname⟩ := splitState?_eq_some hsplit
    have hstate : braces (':' :: (name ++ [' ', '{'])) = ['{'] := by
      rw [← List.singleton_append, braces_append, braces_append,
        braces_of_braceless (braceless_of_word hname)]
      rfl
    rw [behindState_of_splitState? hsplit hline hfront, hout, hline, braces_append, hstate,
      braces_append, braces_append, braces_of_braceless hfront, List.append_assoc]
    rfl

theorem braces_withProperty (line : List Char) : braces (withProperty line) = braces line := by
  rcases withProperty_cases line with
    hsame | ⟨short, property, front, value, hmem, hline, hout, hfront⟩
  · rw [hsame]
  · rw [hout, hline, braces_append, braces_append, braces_of_braceless hfront,
      braces_of_braceless (braceless_aliases _ hmem).2]

theorem braces_terminate (line : List Char) : braces (terminate line) = braces line := by
  unfold terminate
  split
  · rfl
  · have hsemicolon : braces [';'] = [] := rfl
    rw [braces_append, hsemicolon, List.append_nil]

theorem braces_cssLine (line : List Char) :
    braces (cssLine line) ++ braces (dropped line) = braces line := by
  rw [cssLine, braces_terminate, braces_withProperty, dropped, braces_withPseudoClass,
    braces_withSelector, braces_withoutFor]

theorem braces_terminated (ls : List String) :
    braces (terminated ls).toList = ls.flatMap fun l => braces l.toList := by
  induction ls with
  | nil => rfl
  | cons l ls ih =>
      have hnewline : braces ['\n'] = [] := rfl
      rw [terminated_cons, ← List.singleton_append, braces_append, braces_append, hnewline, ih,
        List.nil_append, List.flatMap_cons]

theorem braces_toCss_eq {source : String} (h : Verbatim.body? source.toList = none) :
    braces (toCss source).toList =
      (keptLines source.toList).flatMap fun line => braces (cssLine line) := by
  rw [toCss_of_none h, braces_terminated, List.flatMap_map]
  simp only [String.toList_ofList]

theorem braces_flatten (ls : List (List Char)) : braces ls.flatten = ls.flatMap braces := by
  rw [braces, List.filter_flatten, List.flatMap_def]
  rfl

theorem length_braces_kept (ls : List (List Char)) :
    (ls.flatMap braces).length =
      (ls.flatMap fun line => braces (cssLine line)).length +
        (ls.flatMap fun line => braces (dropped line)).length := by
  induction ls with
  | nil => rfl
  | cons line ls ih =>
      have hline := congrArg List.length (braces_cssLine line)
      simp only [List.flatMap_cons, List.length_append] at hline ⊢
      omega

/-- The braces of the CSS are those of the source, each line taken up to the brace of its state. They
are all the braces of the source just if none is dropped, and then balanced rules stay balanced. -/
theorem braces_toCss {source : String} (h : Verbatim.body? source.toList = none) :
    (∀ line, upToState line ++ dropped line = line) ∧
      braces (toCss source).toList =
        (writtenLines source.toList).flatMap (fun line => braces (upToState line)) ∧
      (braces (toCss source).toList = braces (writtenLines source.toList).flatten ↔
        ∀ line ∈ writtenLines source.toList, Braceless (dropped line)) ∧
      ((∀ line ∈ writtenLines source.toList, Braceless (dropped line)) →
        Balanced (writtenLines source.toList).flatten → Balanced (toCss source).toList) := by
  rw [← keptLines_eq]
  have hline (line : List Char) : braces (cssLine line) = braces (upToState line) := by
    have hparts := congrArg braces (upToState_append_dropped line)
    rw [braces_append, ← braces_cssLine line] at hparts
    exact (List.append_cancel_right hparts).symm
  have hall : braces (toCss source).toList = braces (keptLines source.toList).flatten ↔
      ∀ line ∈ keptLines source.toList, Braceless (dropped line) := by
    rw [braces_toCss_eq h, braces_flatten]
    constructor
    · intro heq
      have hlength := length_braces_kept (keptLines source.toList)
      rw [← heq, Nat.left_eq_add, List.length_eq_zero_iff, List.flatMap_eq_nil_iff] at hlength
      exact fun line hmem => braceless_of_braces (hlength line hmem)
    · intro hnone
      refine List.flatMap_congr fun line hmem => ?_
      rw [← braces_cssLine line, braces_of_braceless (hnone line hmem), List.append_nil]
  refine ⟨upToState_append_dropped, ?_, hall, fun hnone hbalanced => ?_⟩
  · rw [braces_toCss_eq h]
    simp only [hline]
  · refine .of_nesting ?_
    rw [nesting_of_braces_eq (hall.2 hnone)]
    exact hbalanced.nesting

/-- A rule in front of the state in its line, and a state with a declaration behind its brace. -/
theorem braces_toCss_twoRules :
    Verbatim.body? "for b \x7b x \x7d p when hover \x7b y\nbg: red\n\x7d".toList = none ∧
      toCss "for b \x7b x \x7d p when hover \x7b y\nbg: red\n\x7d" =
        "b \x7b x \x7d p:hover \x7b\nbackground-color: red;\n\x7d\n" ∧
      Balanced (toCss "for b \x7b x \x7d p when hover \x7b y\nbg: red\n\x7d").toList := by
  have hmarker :
      Verbatim.body? "for b \x7b x \x7d p when hover \x7b y\nbg: red\n\x7d".toList = none := by
    decide
  have hkept : writtenLines "for b \x7b x \x7d p when hover \x7b y\nbg: red\n\x7d".toList =
      ["for b \x7b x \x7d p when hover \x7b y".toList, "bg: red".toList, "\x7d".toList] := by
    decide +kernel
  obtain ⟨-, -, -, hbalanced⟩ := braces_toCss hmarker
  rw [hkept] at hbalanced
  refine ⟨hmarker, by decide +kernel, hbalanced ?_ (.of_nesting (by decide +kernel))⟩
  refine List.forall_mem_cons.2 ⟨by decide +kernel, ?_⟩
  exact List.forall_mem_cons.2 ⟨by decide +kernel, List.forall_mem_singleton.2 (by decide +kernel)⟩

/-- The body of a rule that stands in one line with its state is lost, with the brace that closes
it. -/
theorem toCss_drops_body :
    Verbatim.body? "a when hover \x7b color: red \x7d".toList = none ∧
      writtenLines "a when hover \x7b color: red \x7d".toList =
        ["a when hover \x7b color: red \x7d".toList] ∧
      toCss "a when hover \x7b color: red \x7d" = "a:hover \x7b\n" ∧
      braces (toCss "a when hover \x7b color: red \x7d").toList ≠
        braces "a when hover \x7b color: red \x7d".toList := by
  have hcss : toCss "a when hover \x7b color: red \x7d" = "a:hover \x7b\n" := by decide +kernel
  refine ⟨by decide, by decide +kernel, hcss, ?_⟩
  rw [hcss]
  decide

end EnglishPages.Style
