import EnglishPages.Proofs.ScriptBraces

/-!
Braces of the source in the script. A statement takes some text of its line over as it is; the block
that it opens has a brace of its own, and the stack of open blocks owes a closing brace for that one.
So the braces of a script nest as the braces do that its source hands over as text.

A line that ends in an opening brace hands over all but that brace, which becomes the one of its
block. If the source closes it by a line of its own, that closing brace comes into the script as
text, and the one that the stack owes comes too: such a block is closed twice.
-/

namespace EnglishPages.Script

open Text

namespace BlockStack

def taken (s : BlockStack) : List (List Char) → List Char
  | [] => []
  | line :: rest => (s.statement line).taken ++ taken (s.step line).1 rest

section Step

variable {st : Statement} {line : List Char} {ks ks' : List BlockKind} {ls : List String}

theorem Performs.nesting_taken (h : Performs st ks ks' ls) (hst : st.Takes line) {d e : Nat}
    (htaken : Text.nesting d st.taken = some e) :
    Text.nesting (ks.length + d) (terminated ls).toList = some (ks'.length + e) := by
  cases h with
  | blank _ hblank =>
      subst hblank
      obtain rfl : d = e := Option.some.inj htaken
      cases ks with
      | nil => rfl
      | cons k ks =>
          have hclose := nesting_closers [k] (ks.length + d)
          rwa [List.length_singleton, ← Nat.add_assoc, Nat.add_comm 1] at hclose
  | opening closed kept hk =>
      rw [List.length_append, Nat.add_assoc]
      refine nesting_closers_append closed ?_
      rw [← nesting_braces, hst.braces_headerLine hk,
        nesting_append_of_eq ((nesting_braces _ _).trans (nesting_add htaken kept.length))]
      exact congrArg some (Nat.add_right_comm _ _ 1)
  | chaining kept helse =>
      subst helse
      obtain rfl : d = e := Option.some.inj htaken
      rw [List.length_cons, List.length_cons, Nat.add_right_comm]
      rfl
  | code closed kept hcode =>
      subst hcode
      rw [List.length_append, Nat.add_assoc]
      exact nesting_closers_append closed (nesting_add htaken ks'.length)

end Step

theorem nesting_run_taken (s : BlockStack) (lines : List (List Char)) {d e : Nat}
    (h : nesting d (s.taken lines) = some e) :
    nesting (s.kinds.length + d) (terminated (s.run lines)).toList = some e := by
  induction lines generalizing s d with
  | nil =>
      obtain rfl : d = e := Option.some.inj h
      exact nesting_closers s.kinds d
  | cons line rest ih =>
      rw [taken, nesting_append] at h
      obtain ⟨between, hline, hrest⟩ := Option.bind_eq_some_iff.1 h
      have hstep := (s.performs_step line).nesting_taken (Statement.read_takes _ line) hline
      rw [run_cons, terminated_append, nesting_append_of_eq hstep]
      exact ih _ hrest

theorem count_run (lines : List (List Char)) :
    (terminated (empty.run lines)).toList.count '{' + (empty.taken lines).count '}' =
      (terminated (empty.run lines)).toList.count '}' + (empty.taken lines).count '{' := by
  -- With enough braces open before it, the walk over the text comes to its end.
  obtain ⟨e, he⟩ : ∃ e, nesting ((empty.taken lines).count '}') (empty.taken lines) = some e :=
    exists_nesting fun p hp => Nat.le_add_right_of_le (hp.sublist.count_le '}')
  have htaken := count_of_nesting he
  have hrun := count_of_nesting (nesting_run_taken empty lines he)
  simp only [empty, List.length_nil] at htaken hrun ⊢
  omega

end BlockStack

/-- A source line whose braces are a closing one at its start and an opening one at its end, or one
of them, or none. -/
def HandBraced (line : List Char) : Prop :=
  '}' ∉ line.tail ∧ '{' ∉ line.dropLast

instance : DecidablePred HandBraced := fun line =>
  inferInstanceAs (Decidable ('}' ∉ line.tail ∧ '{' ∉ line.dropLast))

/-- Every brace of the lines comes into the script as text, those aside with which lines end. -/
def KeepsBraces (lines : List (List Char)) : Prop :=
  braces (BlockStack.empty.taken lines) = braces (lines.map unopened).flatten

theorem HandBraced.braces_taken {line : List Char} (h : HandBraced line) (inClassBody : Bool) :
    braces (Statement.read inClassBody line).taken = braces (unopened line) := by
  have hother (hclose : '}' ∉ line) :
      braces (Statement.read inClassBody line).taken = braces (unopened line) := by
    have hline : BraceAtEndOnly line := ⟨hclose, h.2⟩
    have hnone := braces_of_braceless hline.braceless_unopened
    have hsublist := (Statement.read_takes inClassBody line).braces_sublist
    rw [hnone] at hsublist ⊢
    exact List.sublist_nil.1 hsublist
  cases line with
  | nil => exact hother List.not_mem_nil
  | cons c cs =>
      by_cases hc : c = '}'
      · subst hc
        exact Statement.braces_taken_of_close inClassBody cs
      · exact hother (List.not_mem_cons_of_ne_of_not_mem (fun heq => hc heq.symm) h.1)

theorem BlockStack.braces_taken (s : BlockStack) {lines : List (List Char)}
    (h : ∀ line ∈ lines, HandBraced line) :
    braces (s.taken lines) = braces (lines.map unopened).flatten := by
  induction lines generalizing s with
  | nil => rfl
  | cons line rest ih =>
      have hline : braces (s.statement line).taken = braces (unopened line) :=
        (h line List.mem_cons_self).braces_taken _
      have hrest := ih (s.step line).1 fun line hmem => h line (List.mem_cons_of_mem _ hmem)
      rw [taken, braces_append, hline, hrest, List.map_cons, List.flatten_cons, braces_append]

theorem count_unopened (line : List Char) :
    (unopened line).count '{' + (if endsWithAny ['{'] line then 1 else 0) = line.count '{' ∧
      (unopened line).count '}' = line.count '}' := by
  unfold unopened
  split
  · next hend =>
      have hline := eq_append_of_endsWith hend
      generalize line.dropLast = front at hline ⊢
      subst hline
      simp
  · exact ⟨rfl, rfl⟩

theorem count_flatten_unopened (lines : List (List Char)) :
    (lines.map unopened).flatten.count '{' + lines.countP (endsWithAny ['{']) =
        lines.flatten.count '{' ∧
      (lines.map unopened).flatten.count '}' = lines.flatten.count '}' := by
  induction lines with
  | nil => exact ⟨rfl, rfl⟩
  | cons line rest ih =>
      obtain ⟨hopen, hclose⟩ := count_unopened line
      rw [List.countP_cons]
      simp only [List.map_cons, List.flatten_cons, List.count_append]
      omega

theorem map_unopened_of_not_endsWith {lines : List (List Char)}
    (h : ∀ line ∈ lines, endsWithAny ['{'] line = false) : lines.map unopened = lines := by
  refine (List.map_congr_left fun line hline => ?_).trans (List.map_id lines)
  simp [unopened, h line hline]

open BlockStack in
/-- Braces of the source and of its script, for a source whose lines are balanced of their own. The
script opens and closes as the text does that it takes over, so it is balanced if that text is. Where
every brace comes over but those with which lines end, as when all braces are written in the manner
of lines with a brace at their end and lines with one at their start, each line that ends in an
opening brace costs a closing brace too many; the script is balanced just if there is none. -/
theorem toJavaScript_explicit_blocks (source : String)
    (hscript : Verbatim.body? source.toList = none)
    (hown : Balanced (processedLines source.toList).flatten) :
    (toJavaScript source).toList.count '{' +
        (empty.taken (processedLines source.toList)).count '}' =
      (toJavaScript source).toList.count '}' +
        (empty.taken (processedLines source.toList)).count '{' ∧
    (Balanced (empty.taken (processedLines source.toList)) →
      Balanced (toJavaScript source).toList) ∧
    (KeepsBraces (processedLines source.toList) →
      (toJavaScript source).toList.count '}' =
        (toJavaScript source).toList.count '{' +
          (processedLines source.toList).countP (endsWithAny ['{']) ∧
      (Balanced (toJavaScript source).toList ↔
        ∀ line ∈ processedLines source.toList, endsWithAny ['{'] line = false)) ∧
    ((∀ line ∈ processedLines source.toList, HandBraced line) →
      KeepsBraces (processedLines source.toList)) := by
  rw [toJavaScript_of_none hscript]
  generalize processedLines source.toList = lines at hown
  have hcount := count_run lines
  have hbalanced (htaken : Balanced (empty.taken lines)) :
      Balanced (terminated (empty.run lines)).toList :=
    .of_nesting (nesting_run_taken empty lines htaken.nesting)
  refine ⟨hcount, hbalanced, fun hkept => ?_, empty.braces_taken⟩
  have hmore : (terminated (empty.run lines)).toList.count '}' =
      (terminated (empty.run lines)).toList.count '{' + lines.countP (endsWithAny ['{']) := by
    obtain ⟨hopen, hclose⟩ := count_flatten_unopened lines
    have htotal := hown.total
    obtain ⟨hopenTaken, hcloseTaken⟩ := count_of_braces_eq hkept
    omega
  refine ⟨hmore, fun h => ?_, fun hnone => ?_⟩
  · have hzero : lines.countP (endsWithAny ['{']) = 0 := by
      have htotal := h.total
      omega
    exact fun line hline => Bool.eq_false_iff.2 (List.countP_eq_zero.1 hzero line hline)
  · rw [KeepsBraces, map_unopened_of_not_endsWith hnone] at hkept
    have htaken := (nesting_of_braces_eq hkept 0).trans hown.nesting
    exact hbalanced (.of_nesting htaken)

def bracedAlternative : String :=
  "if (x) \x7b\nlog(x)\n\x7d else \x7b\nlog(y)\n\x7d"

theorem toJavaScript_explicit_blocks_alternative :
    Balanced (processedLines bracedAlternative.toList).flatten ∧
      (∀ line ∈ processedLines bracedAlternative.toList, HandBraced line) ∧
      (toJavaScript bracedAlternative).toList.count '}' =
        (toJavaScript bracedAlternative).toList.count '{' + 2 := by
  have hown : Balanced (processedLines bracedAlternative.toList).flatten :=
    .of_nesting (by decide +kernel)
  have hlines : ∀ line ∈ processedLines bracedAlternative.toList, HandBraced line := by
    decide +kernel
  have htwo : (processedLines bracedAlternative.toList).countP (endsWithAny ['{']) = 2 := by
    decide +kernel
  have hblocks := toJavaScript_explicit_blocks bracedAlternative (by decide +kernel) hown
  exact ⟨hown, hlines, htwo ▸ (hblocks.2.2.1 (hblocks.2.2.2 hlines)).1⟩

/-- The smallest such source: its lines are balanced, and its block is closed twice. -/
theorem toJavaScript_closes_block_twice :
    Balanced (processedLines "if (x) \x7b\n\x7d".toList).flatten ∧
      toJavaScript "if (x) \x7b\n\x7d" = "if (x) \x7b\n\x7d\n\x7d\n" ∧
      ¬ Balanced (toJavaScript "if (x) \x7b\n\x7d").toList := by
  have hscript : toJavaScript "if (x) \x7b\n\x7d" = "if (x) \x7b\n\x7d\n\x7d\n" := by
    decide +kernel
  refine ⟨.of_nesting (by decide +kernel), hscript, fun hbalanced => ?_⟩
  rw [hscript] at hbalanced
  exact absurd hbalanced.total (by decide)

end EnglishPages.Script
