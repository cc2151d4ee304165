import EnglishPages.Proofs.LetterCase
import EnglishPages.Proofs.ScriptResets

/-!
What ends the body of a class. A line of the top level does, and it is told by the word at its front.
For most of these words the whole word counts; `function` and `class` count as soon as a line starts
with their letters, so that a class ends also before an assignment to a variable `functionCount`. Any
other line, if it is neither blank nor the header of a method, leaves open what was open.
-/

namespace EnglishPages.Script

open Text

def leadingWord (line : List Char) : List Char :=
  (line.takeWhile isWord).map foldCase

def topLevelWords : List (List Char) :=
  ["function", "class", "for", "on", "import", "add", "create", "request",
    "requestanimationframe"].map String.toList

/-- The line starts with the letters of `function` or of `class`, whether the word ends there or
not. -/
def RunsOn (line : List Char) : Prop :=
  "function".toList <+: leadingWord line ∨ "class".toList <+: leadingWord line

instance (line : List Char) : Decidable (RunsOn line) :=
  inferInstanceAs (Decidable (_ ∨ _))

section

variable {line ks rest : List Char}

theorem leadingWord_eq (line : List Char) :
    leadingWord line = (line.map foldCase).takeWhile isWord := by
  rw [leadingWord, List.takeWhile_map, show isWord ∘ foldCase = isWord from funext isWord_foldCase]

theorem leadingWord_of_afterKeyword? (h : afterKeyword? ks line = some rest) :
    leadingWord line = (ks ++ rest.map foldCase).takeWhile isWord := by
  rw [leadingWord_eq, map_foldCase_of_afterKeyword? h]

theorem prefix_leadingWord (hks : ∀ c ∈ ks, isWord c = true) (h : (afterKeyword? ks line).isSome) :
    ks <+: leadingWord line := by
  obtain ⟨rest, hrest⟩ := Option.isSome_iff_exists.1 h
  rw [leadingWord_of_afterKeyword? hrest, List.takeWhile_append_of_pos hks]
  exact List.prefix_append ks _

theorem leadingWord_of_end (hks : ∀ c ∈ ks, isWord c = true) (h : afterKeyword? ks line = some rest)
    (hrest : ∀ c ∈ rest.head?, isWord c = false) : leadingWord line = ks := by
  rw [leadingWord_of_afterKeyword? h]
  refine takeWhile_append_of_head? hks fun c hc => ?_
  rw [List.head?_map] at hc
  obtain ⟨d, hd, rfl⟩ := Option.map_eq_some_iff.1 hc
  rw [isWord_foldCase, hrest d hd]

theorem leadingWord_of_afterLeading? {keyword : String} (hks : ∀ c ∈ keyword.toList, isWord c = true)
    (h : (afterLeading? keyword line).isSome) : leadingWord line = keyword.toList := by
  obtain ⟨after, hafter⟩ := Option.isSome_iff_exists.1 h
  obtain ⟨rest, hrest, hblanks⟩ := Option.bind_eq_some_iff.1 hafter
  refine leadingWord_of_end hks hrest fun c hc => ?_
  obtain ⟨cs, rfl⟩ := List.head?_eq_some_iff.1 hc
  refine Bool.eq_false_iff.2 fun hword => ?_
  simp [afterBlanks?, isBlank_of_isWord hword] at hblanks

theorem isSome_afterKeyword? (h : ks <+: leadingWord line) : (afterKeyword? ks line).isSome := by
  obtain ⟨more, hmore⟩ := h
  obtain ⟨word, others, hword, hks, -⟩ := List.map_eq_append_iff.1 hmore.symm
  rw [← List.takeWhile_append_dropWhile (p := isWord) (l := line), hword, List.append_assoc,
    afterKeyword?_append hks]
  rfl

end

namespace Statement

variable {inClassBody : Bool} {line : List Char}

theorem leadingWord_of_isTopLevel (h : isTopLevel line = true) :
    leadingWord line ∈ topLevelWords ∨ RunsOn line := by
  simp only [isTopLevel, List.any_cons, List.any_nil, Bool.or_false, Bool.or_eq_true] at h
  rcases h with (hheader | hleading) | hframe
  · right
    rcases hheader with h | h
    · exact .inl (prefix_leadingWord (List.all_eq_true.1 (by decide)) h)
    · exact .inr (prefix_leadingWord (List.all_eq_true.1 (by decide)) h)
  · left
    rcases hleading with h | h | h | h | h
    all_goals
      rw [leadingWord_of_afterLeading? (List.all_eq_true.1 (by decide)) h]
      decide
  · left
    rcases hframe with h | h
    · split at h
      · cases h
      · next hrest =>
          rw [leadingWord_of_end (List.all_eq_true.1 (by decide)) hrest (by simp)]
          decide
      · next c cs hrest =>
          have hc : isWord c = false := by simpa using h
          rw [leadingWord_of_end (List.all_eq_true.1 (by decide)) hrest (by simp [hc])]
          decide
    · have hsome : ∃ rest, afterKeyword? "request animation frame".toList line = some rest := by
        split at h
        · cases h
        · next hrest => exact ⟨_, hrest⟩
        · next hrest => exact ⟨_, hrest⟩
      obtain ⟨rest, hrest⟩ := hsome
      have hword : leadingWord line = "request".toList := leadingWord_of_afterKeyword? hrest
      rw [hword]
      decide

theorem isTopLevel_of_afterKeyword? {keyword : String} (hkeyword : keyword ∈ ["function", "class"])
    (h : (afterKeyword? keyword.toList line).isSome) : isTopLevel line = true := by
  simp only [isTopLevel, Bool.or_eq_true, List.any_eq_true]
  exact .inl (.inl ⟨keyword, hkeyword, h⟩)

theorem isTopLevel_of_runsOn (h : RunsOn line) : isTopLevel line = true := by
  rcases h with h | h
  · exact isTopLevel_of_afterKeyword? (by simp) (isSome_afterKeyword? h)
  · exact isTopLevel_of_afterKeyword? (by simp) (isSome_afterKeyword? h)

theorem isTopLevel_of_afterLeading? {keyword : String} (hkeyword : keyword ∈ ["function", "class"])
    {header : List Char} (h : afterLeading? keyword line = some header) : isTopLevel line = true := by
  obtain ⟨rest, hrest, -⟩ := Option.bind_eq_some_iff.1 h
  exact isTopLevel_of_afterKeyword? hkeyword (Option.isSome_of_eq_some hrest)

theorem isTopLevel_of_opened (h : (read inClassBody line).opened? = some .function ∨
    (read inClassBody line).opened? = some .classBody) : isTopLevel line = true := by
  rcases read_cases inClassBody line with ⟨rule, hmem, hrule⟩ | ⟨-, -, ⟨rule, hmem, hrule⟩ | hcode⟩
  · simp only [earlyRules, List.mem_cons, List.not_mem_nil, or_false] at hmem
    rcases hmem with rfl | rfl | rfl | rfl
    · simp [(blank?_eq_some hrule).2, opened?] at h
    · obtain ⟨_, _, _, hheader, -⟩ := function?_eq_some hrule
      exact isTopLevel_of_afterLeading? (by simp) hheader
    · obtain ⟨-, _, _, _, _, -, -, hst⟩ := method?_eq_some hrule
      simp [hst, opened?] at h
    · simp [(explicit?_eq_some hrule).2, opened?] at h
  · simp only [lateRules, List.mem_cons, List.not_mem_nil, or_false] at hmem
    rcases hmem with rfl | rfl | rfl | rfl | rfl | rfl | rfl | rfl | rfl
    · obtain ⟨_, _, _, hheader, -⟩ := class?_eq_some hrule
      exact isTopLevel_of_afterLeading? (by simp) hheader
    · exact isTopLevel_of_event? hrule
    · obtain ⟨_, -, hst⟩ := conditional?_eq_some hrule
      simp [hst, opened?] at h
    · simp [alternative?_eq_some hrule, opened?] at h
    · obtain ⟨_, -, hst⟩ := loop?_eq_some hrule
      simp [hst, opened?] at h
    · obtain ⟨_, _, _, -, -, hst | ⟨_, -, hst⟩⟩ := declaration?_eq_some hrule
      · simp [hst, opened?] at h
      · simp [hst, opened?] at h
    · obtain ⟨_, _, _, -, -, hst⟩ := log?_eq_some hrule
      simp [hst, opened?] at h
    · obtain ⟨_, _, _, _, _, -, -, -, hst⟩ := call?_eq_some hrule
      simp [hst, opened?] at h
    · obtain ⟨_, -, hst⟩ := return?_eq_some hrule
      simp [hst, opened?] at h
  · simp [hcode, opened?] at h

end Statement

/-- From the open blocks `ks` to `ks'` none is closed: the statement adds the block that it opens, or
it is an alternative and takes the place of the conditional that it follows. -/
def Statement.Keeps (st : Statement) (ks ks' : List BlockKind) : Prop :=
  ks' = st.opened?.toList ++ ks ∨
    st = .alternativeHeader ∧ ∃ kept, ks = .conditional :: kept ∧ ks' = .alternative :: kept

namespace BlockStack

variable {s : BlockStack} {line : List Char}

theorem keeps_perform {st : Statement} (hblank : st ≠ .blank) (hfunction : st.opened? ≠ some .function)
    (hclass : st.opened? ≠ some .classBody) (hmethod : st.opened? ≠ some .method) :
    st.Keeps s.kinds (s.perform st).1.kinds ∧ (s.perform st).2.length = 1 := by
  cases st with
  | blank => exact absurd rfl hblank
  | functionHeader name parameters => exact absurd rfl hfunction
  | classHeader name => exact absurd rfl hclass
  | methodHeader isStatic name parameters => exact absurd rfl hmethod
  | alternativeHeader =>
      obtain ⟨ks⟩ := s
      by_cases hchained : ks.head? = some .conditional
      · obtain ⟨kept, rfl⟩ := List.head?_eq_some_iff.1 hchained
        exact ⟨.inr ⟨rfl, kept, rfl, rfl⟩, rfl⟩
      · have hopen : perform ⟨ks⟩ .alternativeHeader = opening ⟨ks⟩ .alternative "else \x7b" :=
          if_neg hchained
        rw [hopen]
        exact ⟨.inl rfl, rfl⟩
  | explicitHeader header => exact ⟨.inl rfl, rfl⟩
  | eventHeader target event parameters => exact ⟨.inl rfl, rfl⟩
  | conditionalHeader condition => exact ⟨.inl rfl, rfl⟩
  | loopHeader condition => exact ⟨.inl rfl, rfl⟩
  | simple code => exact ⟨.inl rfl, rfl⟩

theorem perform_empty {st : Statement} (hblank : st ≠ .blank) :
    (empty.perform st).1.kinds = st.opened?.toList ∧ ∃ own, (empty.perform st).2 = [own] := by
  cases st with
  | blank => exact absurd rfl hblank
  | _ => exact ⟨rfl, _, rfl⟩

theorem statement_ne_blank (hline : line ≠ []) : s.statement line ≠ .blank := by
  intro hblank
  have hfits := s.statement_fits line
  rw [hblank] at hfits
  exact hline hfits

/-- While a class is open, a line that is neither blank nor the header of a method, and has none of
the words of the top level at its front, closes nothing, unless its first word runs on from
`function` or `class`; then it closes everything. -/
theorem step_in_class (hclass : .classBody ∈ s.kinds) (hline : line ≠ [])
    (hword : leadingWord line ∉ topLevelWords)
    (hmethod : (s.statement line).opened? ≠ some .method) :
    (¬ RunsOn line →
      (s.statement line).Keeps s.kinds (s.step line).1.kinds ∧ (s.step line).2.length = 1) ∧
    (RunsOn line →
      (s.step line).1.kinds = (s.statement line).opened?.toList ∧
        ∃ own, (s.step line).2 = s.kinds.map BlockKind.closer ++ [own]) := by
  have hcontains : s.contains .classBody = true := List.contains_iff_mem.2 hclass
  have hblank : s.statement line ≠ .blank := statement_ne_blank hline
  constructor
  · intro hends
    have htop : Statement.isTopLevel line = false :=
      Bool.eq_false_iff.2 fun htop =>
        (Statement.leadingWord_of_isTopLevel htop).elim hword hends
    have hleaving : s.leaving line = (s, []) := by simp [leaving, htop]
    have hopened (k : BlockKind) (hk : k = .function ∨ k = .classBody) :
        (s.statement line).opened? ≠ some k := by
      intro hopen
      have htop' : Statement.isTopLevel line = true :=
        Statement.isTopLevel_of_opened (hk.imp (fun h => h ▸ hopen) fun h => h ▸ hopen)
      rw [htop] at htop'
      cases htop'
    rw [step_eq, hleaving]
    exact keeps_perform hblank (hopened _ (.inl rfl)) (hopened _ (.inr rfl)) hmethod
  · intro hruns
    have hleaving : s.leaving line = s.closeAll := by
      simp only [leaving, hcontains, Statement.isTopLevel_of_runsOn hruns, Bool.and_self, if_true]
    obtain ⟨hkinds, own, hown⟩ := perform_empty hblank
    rw [step_eq, hleaving]
    exact ⟨hkinds, own, congrArg (s.closeAll.2 ++ ·) hown⟩

/-- In a method with a conditional open: the alternative takes its place, and a line that starts with
an identifier such as `classes` ends method and class. -/
theorem step_in_class_conditional :
    (empty.after ["class A".toList, "m()".toList, "when (x)".toList]).kinds =
        [.conditional, .method, .classBody] ∧
      ((empty.after ["class A".toList, "m()".toList, "when (x)".toList]).step
        "Else".toList).2.length = 1 ∧
      ((empty.after ["class A".toList, "m()".toList, "when (x)".toList]).step
        "classes()".toList).1.kinds = [] := by
  have hkinds : (empty.after ["class A".toList, "m()".toList, "when (x)".toList]).kinds =
      [.conditional, .method, .classBody] := by
    decide +kernel
  have hclass : .classBody ∈ (empty.after ["class A".toList, "m()".toList, "when (x)".toList]).kinds :=
    hkinds ▸ by decide
  refine ⟨hkinds, ?_, ?_⟩
  · have hword : leadingWord "Else".toList ∉ topLevelWords := by decide +kernel
    have helse := step_in_class hclass (by decide) hword (by decide +kernel)
    exact (helse.1 (by decide +kernel)).2
  · have hword : leadingWord "classes()".toList ∉ topLevelWords := by decide +kernel
    have hclasses := step_in_class hclass (by decide) hword (by decide +kernel)
    rw [(hclasses.2 (by decide +kernel)).1]
    decide +kernel

/-- An assignment inside a method, to a variable whose name starts with `function`: the method and
the class end before it. -/
theorem step_leaves_class_at_assignment :
    (empty.after ["class A".toList, "run()".toList]).kinds = [.method, .classBody] ∧
      leadingWord "functionCount = 1".toList ∉ topLevelWords ∧
      (empty.after ["class A".toList, "run()".toList]).statement "functionCount = 1".toList =
        .simple "functionCount = 1;" ∧
      ((empty.after ["class A".toList, "run()".toList]).step "functionCount = 1".toList).1.kinds =
        [] ∧
      toJavaScript "class A\nrun()\nfunctionCount = 1" =
        "class A \x7b\nrun() \x7b\n\x7d\n\x7d\nfunctionCount = 1;\n" := by
  decide +kernel

end BlockStack

end EnglishPages.Script
