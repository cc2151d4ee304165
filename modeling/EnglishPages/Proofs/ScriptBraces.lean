import EnglishPages.Proofs.TakenText

/-!
Generated scripts are balanced. The source lines may open braces of their own, but only one and only
as the last character of a line, and close none; then every brace of the script belongs to a header
or to the line that closes it, and the number of open braces is the number of open blocks after
every line.
-/

namespace EnglishPages.Script

open Text

/-- A source line that closes no brace, and opens one at most as its last character. -/
def BraceAtEndOnly (line : List Char) : Prop :=
  '}' ∉ line ∧ '{' ∉ line.dropLast

instance : DecidablePred BraceAtEndOnly := fun line =>
  inferInstanceAs (Decidable ('}' ∉ line ∧ '{' ∉ line.dropLast))

def IsHeader (l : String) : Prop :=
  ∃ stem : String, l = stem ++ "\x7b" ∧ Braceless stem.toList

theorem IsHeader.append {front l : String} (h : IsHeader l) (hfront : Braceless front.toList) :
    IsHeader (front ++ l) := by
  obtain ⟨stem, rfl, hstem⟩ := h
  refine ⟨front ++ stem, String.append_assoc.symm, ?_⟩
  rw [String.toList_append, braceless_append]
  exact ⟨hfront, hstem⟩

theorem IsHeader.nesting {l : String} (h : IsHeader l) (d : Nat) :
    nesting d l.toList = some (d + 1) := by
  obtain ⟨stem, rfl, hstem⟩ := h
  rw [String.toList_append, nesting_append_of_eq (nesting_of_braceless hstem d)]
  rfl

theorem IsHeader.getLast? {l : String} (h : IsHeader l) : l.toList.getLast? = some '{' := by
  obtain ⟨stem, rfl, -⟩ := h
  simp

section Line

variable {line : List Char} (hline : BraceAtEndOnly line)

include hline

theorem BraceAtEndOnly.dropLast : Braceless line.dropLast := by
  intro c hc
  refine ⟨?_, ?_⟩
  · rintro rfl
    exact hline.2 hc
  · rintro rfl
    exact hline.1 (List.dropLast_subset line hc)

theorem BraceAtEndOnly.braceless (hend : endsWithAny ['{'] line = false) : Braceless line := by
  cases hlast : line.getLast? with
  | none => simp [List.getLast?_eq_none_iff.1 hlast, Braceless]
  | some c =>
      have hc : c ≠ '{' := by simpa [endsWithAny, hlast] using hend
      obtain ⟨front, rfl⟩ := List.getLast?_eq_some_iff.1 hlast
      have hfront : Braceless front := by simpa using hline.dropLast
      have hclose : c ≠ '}' := by
        rintro rfl
        exact hline.1 (by simp)
      exact braceless_append.2 ⟨hfront, by simpa [Braceless] using ⟨hc, hclose⟩⟩

theorem BraceAtEndOnly.braceless_unopened : Braceless (unopened line) := by
  unfold unopened
  split
  · exact hline.dropLast
  · next hend => exact hline.braceless (Bool.eq_false_iff.2 hend)

end Line

namespace Statement

/-- The braces of a statement: a header has one at its end, and nothing else has any. -/
def Clean : Statement → Prop
  | blank => True
  | functionHeader name parameters => Braceless name.toList ∧ Braceless parameters.toList
  | methodHeader _ name parameters => Braceless name.toList ∧ Braceless parameters.toList
  | explicitHeader header => IsHeader header
  | classHeader name => Braceless name.toList
  | eventHeader target event parameters =>
      Braceless target.toList ∧ Braceless event.toList ∧ Braceless parameters.toList
  | conditionalHeader condition => Braceless condition.toList
  | alternativeHeader => True
  | loopHeader condition => Braceless condition.toList
  | simple code => Braceless code.toList

theorem Clean.isHeader {st : Statement} {k : BlockKind} (h : st.Clean)
    (hk : st.opened? = some k) : IsHeader st.headerLine := by
  have hend : IsHeader ") \x7b" := ⟨") ", rfl, by decide⟩
  cases st with
  | blank => simp [opened?] at hk
  | simple code => simp [opened?] at hk
  | functionHeader name parameters =>
      refine hend.append ?_
      simp only [String.toList_append, braceless_append]
      exact ⟨⟨⟨by decide, h.1⟩, by decide⟩, h.2⟩
  | methodHeader isStatic name parameters =>
      refine hend.append ?_
      simp only [String.toList_append, braceless_append]
      refine ⟨⟨⟨?_, h.1⟩, by decide⟩, h.2⟩
      cases isStatic <;> decide
  | explicitHeader header => exact h
  | classHeader name =>
      have hend : IsHeader " \x7b" := ⟨" ", rfl, by decide⟩
      refine hend.append ?_
      simp only [String.toList_append, braceless_append]
      exact ⟨by decide, h⟩
  | eventHeader target event parameters =>
      have hend : IsHeader ") => \x7b" := ⟨") => ", rfl, by decide⟩
      refine hend.append ?_
      simp only [String.toList_append, braceless_append]
      exact ⟨⟨⟨⟨h.1, by decide⟩, h.2.1⟩, by decide⟩, h.2.2⟩
  | conditionalHeader condition =>
      refine hend.append ?_
      simp only [String.toList_append, braceless_append]
      exact ⟨by decide, h⟩
  | alternativeHeader => exact ⟨"else ", rfl, by decide⟩
  | loopHeader condition =>
      refine hend.append ?_
      simp only [String.toList_append, braceless_append]
      exact ⟨by decide, h⟩

theorem read_clean (inClassBody : Bool) {line : List Char} (hline : BraceAtEndOnly line) :
    (read inClassBody line).Clean := by
  obtain ⟨hsublist, hexplicit⟩ := read_takes inClassBody line
  have htaken : Braceless (read inClassBody line).taken := by
    rw [braces_of_braceless hline.braceless_unopened] at hsublist
    exact braceless_of_braces (List.sublist_nil.1 hsublist)
  cases hst : read inClassBody line with
  | blank => trivial
  | functionHeader name parameters =>
      rw [hst] at htaken
      exact braceless_append.1 htaken
  | methodHeader isStatic name parameters =>
      rw [hst] at htaken
      exact braceless_append.1 htaken
  | explicitHeader header =>
      rw [hst] at htaken
      obtain ⟨front, hfront⟩ := List.getLast?_eq_some_iff.1 (hexplicit header hst)
      rw [taken, hfront, List.dropLast_concat] at htaken
      refine ⟨String.ofList front, String.ext ?_, by simpa using htaken⟩
      simp [hfront]
  | classHeader name =>
      rw [hst] at htaken
      exact htaken
  | eventHeader target event parameters =>
      rw [hst] at htaken
      obtain ⟨hnames, hparameters⟩ := braceless_append.1 htaken
      obtain ⟨htarget, hevent⟩ := braceless_append.1 hnames
      exact ⟨htarget, hevent, hparameters⟩
  | conditionalHeader condition =>
      rw [hst] at htaken
      exact htaken
  | alternativeHeader => trivial
  | loopHeader condition =>
      rw [hst] at htaken
      exact htaken
  | simple code =>
      rw [hst] at htaken
      exact htaken

end Statement

namespace BlockStack

open Statement

variable {st : Statement} {k : BlockKind} {ks ks' outer : List BlockKind} {ls : List String}

theorem nesting_closer (d : Nat) (k : BlockKind) : nesting (d + 1) k.closer.toList = some d := by
  cases k <;> rfl

theorem nesting_closers (closed : List BlockKind) (d : Nat) :
    nesting (closed.length + d) (terminated (closed.map BlockKind.closer)).toList = some d := by
  induction closed with
  | nil => simp
  | cons k closed ih =>
      have hclose : nesting ((k :: closed).length + d) k.closer.toList =
          some (closed.length + d) := by
        rw [List.length_cons, Nat.add_right_comm]
        exact nesting_closer _ k
      rw [List.map_cons, nesting_terminated_cons hclose, ih]

theorem nesting_closers_append {d e : Nat} {l : String} (closed : List BlockKind)
    (hl : nesting d l.toList = some e) :
    nesting (closed.length + d) (terminated (closed.map BlockKind.closer ++ [l])).toList =
      some e := by
  rw [terminated_append, nesting_append_of_eq (nesting_closers closed d),
    nesting_terminated_cons hl]
  rfl

theorem Performs.nesting (h : Performs st ks ks' ls) (hst : st.Clean) :
    nesting ks.length (terminated ls).toList = some ks'.length := by
  cases h with
  | blank _ _ =>
      cases ks with
      | nil => rfl
      | cons k ks =>
          have hclose := nesting_closers [k] ks.length
          rwa [List.length_singleton, Nat.add_comm] at hclose
  | opening closed kept hk =>
      rw [List.length_append]
      exact nesting_closers_append closed ((hst.isHeader hk).nesting kept.length)
  | chaining kept _ => rfl
  | @code closed _ code hcode =>
      have hbraceless : Braceless code.toList := by simpa [Clean, hcode] using hst
      rw [List.length_append]
      exact nesting_closers_append closed (nesting_of_braceless hbraceless ks'.length)

theorem nesting_run (s : BlockStack) {lines : List (List Char)}
    (hlines : ∀ line ∈ lines, BraceAtEndOnly line) :
    nesting s.kinds.length (terminated (s.run lines)).toList = some 0 := by
  induction lines generalizing s with
  | nil => exact nesting_closers s.kinds 0
  | cons line rest ih =>
      have hclean : (s.statement line).Clean := read_clean _ (hlines line List.mem_cons_self)
      rw [run_cons, terminated_append, nesting_append_of_eq ((s.performs_step line).nesting hclean)]
      exact ih _ fun line h => hlines line (List.mem_cons_of_mem _ h)

/-- The lines that close a block of a kind: its own closing line, or for a conditional the line that
turns it into its alternative. -/
def Closes (k : BlockKind) (closer : String) : Prop :=
  closer = k.closer ∨ k = .conditional ∧ closer = "\x7d else \x7b"

theorem Closes.of_event {closer : String} (h : Closes .event closer) : closer = "\x7d);" := by
  rcases h with rfl | ⟨hk, -⟩
  · rfl
  · simp at hk

theorem Closes.of_ne_event {closer : String} (h : Closes k closer) (hk : k ≠ .event) :
    closer = "\x7d" ∨ k = .conditional ∧ closer = "\x7d else \x7b" := by
  rcases h with rfl | h
  · refine .inl ?_
    cases k with
    | event => exact absurd rfl hk
    | _ => rfl
  · exact .inr h

theorem Closes.head? {closer : String} (h : Closes k closer) :
    closer.toList.head? = some '}' := by
  rcases h with rfl | ⟨-, rfl⟩
  · cases k <;> rfl
  · rfl

/-- Among the lines there is one that closes a block of kind `k`, and the lines before it close
just the `d` blocks that are open inside that block, and what they open themselves. -/
def ClosedIn (k : BlockKind) (d : Nat) (ls : List String) : Prop :=
  ∃ inside closer below, ls = inside ++ closer :: below ∧
    nesting d (terminated inside).toList = some 0 ∧ Closes k closer

theorem ClosedIn.append {d e : Nat} {front : List String} (h : ClosedIn k e ls)
    (hfront : nesting d (terminated front).toList = some e) : ClosedIn k d (front ++ ls) := by
  obtain ⟨inside, closer, below, rfl, hinside, hcloses⟩ := h
  refine ⟨front ++ inside, closer, below, by simp, ?_, hcloses⟩
  rw [terminated_append, nesting_append_of_eq hfront, hinside]

theorem closedIn_closers (inner outer : List BlockKind) (k : BlockKind) (ls : List String) :
    ClosedIn k inner.length ((inner ++ k :: outer).map BlockKind.closer ++ ls) := by
  refine ⟨inner.map BlockKind.closer, k.closer, outer.map BlockKind.closer ++ ls, by simp, ?_,
    .inl rfl⟩
  exact nesting_closers inner 0

theorem closed_inside_or_through {closed kept inner : List BlockKind}
    (h : closed ++ kept = inner ++ k :: outer) :
    (∃ inner', inner = closed ++ inner' ∧ kept = inner' ++ k :: outer) ∨
      ∃ more, closed = inner ++ k :: more := by
  rcases List.append_eq_append_iff.1 h with ⟨more, hmore, hkept⟩ | ⟨more, hmore, htail⟩
  · exact .inl ⟨more, hmore, hkept⟩
  · cases more with
    | nil => exact .inl ⟨[], by simpa using hmore.symm, by simpa using htail.symm⟩
    | cons j more =>
        obtain ⟨rfl, -⟩ := List.cons.inj htail
        exact .inr ⟨more, hmore⟩

/-- One line, seen from a block that is open. Either the block stays open, and the line does to the
blocks inside what it would do if they were all; or the line closes it. -/
theorem Performs.keeps_or_closes {inner : List BlockKind}
    (h : Performs st (inner ++ k :: outer) ks' ls) :
    (∃ inner', ks' = inner' ++ k :: outer ∧ Performs st inner inner' ls) ∨
      ∀ ms, ClosedIn k inner.length (ls ++ ms) := by
  generalize hopen : inner ++ k :: outer = opened at h
  cases h with
  | blank _ hst =>
      cases inner with
      | nil =>
          subst hopen
          exact .inr fun ms => closedIn_closers [] [] k ms
      | cons j inner =>
          subst hopen
          exact .inl ⟨inner, rfl, .blank (j :: inner) hst⟩
  | @opening closed kept j hj =>
      rcases closed_inside_or_through hopen.symm with ⟨inner', rfl, rfl⟩ | ⟨more, rfl⟩
      · exact .inl ⟨j :: inner', rfl, .opening closed inner' hj⟩
      · refine .inr fun ms => ?_
        rw [List.append_assoc]
        exact closedIn_closers inner more k _
  | chaining kept hst =>
      cases inner with
      | nil =>
          obtain ⟨rfl, -⟩ := List.cons.inj hopen
          exact .inr fun ms => ⟨[], _, ms, rfl, rfl, .inr ⟨rfl, rfl⟩⟩
      | cons j inner =>
          obtain ⟨rfl, rfl⟩ := List.cons.inj hopen
          exact .inl ⟨.alternative :: inner, rfl, .chaining inner hst⟩
  | code closed kept hst =>
      rcases closed_inside_or_through hopen.symm with ⟨inner', rfl, rfl⟩ | ⟨more, rfl⟩
      · exact .inl ⟨inner', rfl, .code closed inner' hst⟩
      · refine .inr fun ms => ?_
        rw [List.append_assoc]
        exact closedIn_closers inner more k _

theorem closedIn_run {s : BlockStack} {inner : List BlockKind} {lines : List (List Char)}
    (hs : s.kinds = inner ++ k :: outer) (hlines : ∀ line ∈ lines, BraceAtEndOnly line) :
    ClosedIn k inner.length (s.run lines) := by
  -- From line to line only the blocks inside the given one change.
  induction lines generalizing s inner with
  | nil =>
      have hrun : s.run [] = (inner ++ k :: outer).map BlockKind.closer ++ [] := by
        rw [← hs, List.append_nil]
        rfl
      exact hrun ▸ closedIn_closers inner outer k []
  | cons line rest ih =>
      have hclean : (s.statement line).Clean := read_clean _ (hlines line List.mem_cons_self)
      have hrest : ∀ line ∈ rest, BraceAtEndOnly line :=
        fun line h => hlines line (List.mem_cons_of_mem _ h)
      have hperforms := s.performs_step line
      rw [hs] at hperforms
      rw [run_cons]
      rcases hperforms.keeps_or_closes with ⟨inner', hkept, hinner⟩ | hclosed
      · exact (ih hkept hrest).append (hinner.nesting hclean)
      · exact hclosed _

theorem Performs.header (h : Performs st ks ks' ls) (hst : st.Clean) (hk : st.opened? = some k) :
    ∃ kept front header, ks' = k :: kept ∧ ls = front ++ [header] ∧
      header.toList.getLast? = some '{' ∧
      (k = .conditional → ∃ condition, header = "if (" ++ condition ++ ") \x7b") := by
  cases h with
  | blank _ hblank => simp [hblank, opened?] at hk
  | code _ _ hcode => simp [hcode, opened?] at hk
  | chaining kept helse =>
      obtain rfl : BlockKind.alternative = k := by simpa [helse, opened?] using hk
      exact ⟨kept, [], _, rfl, rfl, rfl, by simp⟩
  | opening closed kept hj =>
      obtain rfl := Option.some.inj (hj.symm.trans hk)
      refine ⟨kept, _, _, rfl, rfl, (hst.isHeader hk).getLast?, ?_⟩
      rintro rfl
      cases st <;> simp_all [opened?]
      exact ⟨_, rfl⟩

end BlockStack

open BlockStack in
/-- The script of a source whose lines close no braces, and open them only at their ends, is
balanced. Every header in it, which is the last line written for some line of the source, is closed
by exactly one line: an event handler by the line that also ends its call, a conditional by a brace
or by the line that opens its alternative, and any other block by a brace. -/
theorem toJavaScript_balanced (source : String) (hscript : Verbatim.body? source.toList = none)
    (hlines : ∀ line ∈ processedLines source.toList, BraceAtEndOnly line) :
    Balanced (toJavaScript source).toList ∧
    ∀ before line after k, processedLines source.toList = before ++ line :: after →
      ((empty.after before).statement line).opened? = some k →
      ∃ above header rest closer,
        toJavaScript source = terminated (above ++ header :: rest) ∧
        empty.written (before ++ [line]) = above ++ [header] ∧
        header.toList.getLast? = some '{' ∧
        (∀ l, ClosedBy rest l ↔ l = closer) ∧
        if k = .event then closer = "\x7d);"
        else closer = "\x7d" ∨
          closer = "\x7d else \x7b" ∧ ∃ condition, header = "if (" ++ condition ++ ") \x7b" := by
  have htext : toJavaScript source = terminated (empty.run (processedLines source.toList)) := by
    simp only [toJavaScript, hscript, scriptLines]
  refine ⟨htext ▸ .of_nesting (nesting_run empty hlines), ?_⟩
  intro before line after k hsplit hk
  have hall : ∀ l ∈ before ++ line :: after, BraceAtEndOnly l := hsplit ▸ hlines
  have hclean : ((empty.after before).statement line).Clean :=
    Statement.read_clean _ (hall line (by simp))
  have hafter : ∀ l ∈ after, BraceAtEndOnly l := fun l hl => hall l (by simp [hl])
  obtain ⟨kept, front, header, hkinds, hwritten, hend, hcondition⟩ :=
    ((empty.after before).performs_step line).header hclean hk
  obtain ⟨inside, closer, below, hrun, hinside, hcloses⟩ :=
    closedIn_run (show _ = [] ++ k :: kept from hkinds) hafter
  have hclosedBy : ClosedBy (inside ++ closer :: below) closer :=
    ⟨inside, below, rfl, .of_nesting hinside, hcloses.head?⟩
  refine ⟨empty.written before ++ front, header, inside ++ closer :: below, closer, ?_, ?_, hend,
    fun l => ⟨fun hl => hl.unique hclosedBy, fun hl => hl ▸ hclosedBy⟩, ?_⟩
  · rw [htext, hsplit, run_append, run_cons, hwritten, hrun]
    simp
  · rw [written_append, written, written, hwritten]
    simp
  · split
    · next hevent => exact (hevent ▸ hcloses).of_event
    · next hevent =>
        rcases hcloses.of_ne_event hevent with hbrace | ⟨hk, helse⟩
        · exact .inl hbrace
        · exact .inr ⟨helse, hcondition hk⟩

theorem toJavaScript_balanced_handler :
    ∃ above header rest closer,
      toJavaScript "on b click\nwhen (x)\nelse\nif (y) \x7b\n" =
        terminated (above ++ header :: rest) ∧
      header.toList.getLast? = some '{' ∧ (∀ l, ClosedBy rest l ↔ l = closer) ∧
      closer = "\x7d);" := by
  obtain ⟨above, header, rest, closer, htext, -, hend, hclosed, hcloser⟩ :=
    (toJavaScript_balanced "on b click\nwhen (x)\nelse\nif (y) \x7b\n" (by decide +kernel)
      (by decide +kernel)).2 [] "on b click".toList
      ["when (x)".toList, "else".toList, "if (y) \x7b".toList, []] .event (by decide +kernel)
      (by decide +kernel)
  exact ⟨above, header, rest, closer, htext, hend, hclosed, hcloser⟩

end EnglishPages.Script
