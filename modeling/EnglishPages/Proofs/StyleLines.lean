import EnglishPages.Proofs.StyleRules

/-!
Style sheets are written line by line. Each line of the source that is neither blank nor a comment
gives one line of CSS, which depends on nothing else, starts and ends with a visible character and
has a brace or a semicolon at its end. So a source may be cut at any line end and its parts be
written one by one, however the lines end and whatever white space stands around them.
-/

namespace EnglishPages

namespace Text

def withoutReturn (line : List Char) : List Char :=
  if line.getLast? = some '\r' then line.dropLast else line

/-- The lines of a text file: a carriage return before a newline belongs to the end of its line, and
what stands behind the last newline is a line if it is not empty. -/
def fileLines (cs : List Char) : List (List Char) :=
  (lines cs).dropLast.map withoutReturn ++ (lines cs).getLast?.toList.filter (!·.isEmpty)

theorem trim_withoutReturn (line : List Char) : trim (withoutReturn line) = trim line := by
  unfold withoutReturn
  split
  · next hlast =>
      obtain ⟨front, rfl⟩ := List.getLast?_eq_some_iff.1 hlast
      rw [List.dropLast_concat, trim_append_of_blank front (by decide)]
  · rfl

end Text

namespace Style

open Text

/-- The lines of a source that are written, trimmed: those that are not empty then and do not start
with two hyphens. -/
def writtenLines (source : List Char) : List (List Char) :=
  ((fileLines source).map trim).filter fun line => line ≠ [] ∧ ¬ "--".toList <+: line

theorem isKept_eq (line : List Char) :
    isKept line = decide (line ≠ [] ∧ ¬ "--".toList <+: line) := by
  have hempty : line.isEmpty = decide (line = []) := by
    rw [Bool.eq_iff_iff, List.isEmpty_iff, decide_eq_true_iff]
  have hhyphens : "--".toList.isPrefixOf line = decide ("--".toList <+: line) := by
    rw [Bool.eq_iff_iff, List.isPrefixOf_iff_prefix, decide_eq_true_iff]
  rw [isKept, hempty, hhyphens, Bool.decide_and, decide_not, decide_not]

theorem keptLines_eq (cs : List Char) : keptLines cs = writtenLines cs := by
  obtain ⟨front, last, hlines⟩ : ∃ front last, lines cs = front ++ [last] :=
    ⟨_, _, (List.dropLast_concat_getLast (pieces_ne_nil '\n' cs)).symm⟩
  have hfront : (front.map withoutReturn).map trim = front.map trim := by
    rw [List.map_map]
    exact List.map_congr_left fun line _ => trim_withoutReturn line
  have hlast : (([last].filter (!·.isEmpty)).map trim).filter isKept =
      ([last].map trim).filter isKept := by
    cases last with
    | nil => rfl
    | cons c cs => rfl
  have hkept : writtenLines cs = ((fileLines cs).map trim).filter isKept :=
    List.filter_congr fun line _ => (isKept_eq line).symm
  rw [hkept, keptLines, fileLines, hlines, List.dropLast_concat, List.getLast?_concat,
    Option.toList_some, List.map_append, List.map_append, List.filter_append, List.filter_append,
    hfront, hlast]

theorem of_mem_keptLines {cs line : List Char} (h : line ∈ keptLines cs) :
    IsTrimmed line ∧ line ≠ [] ∧ '\n' ∉ line := by
  obtain ⟨hmem, hkept⟩ := List.mem_filter.1 h
  obtain ⟨whole, hwhole, rfl⟩ := List.mem_map.1 hmem
  refine ⟨isTrimmed_trim whole, ?_, fun hnewline => ?_⟩
  · intro hnil
    rw [hnil] at hkept
    cases hkept
  · exact not_mem_of_mem_pieces hwhole (mem_of_mem_trim hnewline)

structure StartsLine (l : List Char) : Prop where
  visible : ∃ c ∈ l.head?, isBlank c = false
  oneLine : '\n' ∉ l

structure IsCssLine (l : List Char) : Prop where
  ne_nil : l ≠ []
  trimmed : IsTrimmed l
  ended : endsWithAny ['{', '}', ';'] l = true
  oneLine : '\n' ∉ l

variable {line : List Char}

theorem startsLine_withoutFor (htrimmed : IsTrimmed line) (hne : line ≠ [])
    (hline : '\n' ∉ line) : StartsLine (withoutFor line) := by
  rcases withoutFor_cases line with hsame | ⟨front, hfront, -, ⟨c, hc, hblank⟩, hhead⟩
  · rw [hsame]
    obtain ⟨c, cs, rfl⟩ := List.exists_cons_of_ne_nil hne
    exact ⟨⟨c, rfl, htrimmed.head c rfl⟩, hline⟩
  · refine ⟨?_, fun hmem => hline (hfront ▸ List.mem_append_right front hmem)⟩
    cases hrest : withoutFor line with
    | nil =>
        rw [hrest, List.append_nil] at hfront
        have hvisible := htrimmed.last c (hfront ▸ hc)
        rw [hblank] at hvisible
        cases hvisible
    | cons d cs => exact ⟨d, rfl, hhead d (by rw [hrest]; rfl)⟩

theorem StartsLine.withSelector (h : StartsLine line) : StartsLine (withSelector line) := by
  rcases withSelector_cases line with hsame | ⟨sigil, front, name, rest, hline, hout, hsigil, -⟩
  · rwa [hsame]
  · rw [hout]
    refine ⟨⟨sigil, rfl, ?_⟩, ?_⟩
    · rcases hsigil with rfl | rfl
      · rfl
      · rfl
    · refine List.not_mem_cons_of_ne_of_not_mem ?_ fun hmem => h.oneLine ?_
      · rcases hsigil with rfl | rfl
        · decide
        · decide
      · rw [hline]
        exact List.mem_append_right front hmem

theorem StartsLine.withPseudoClass (h : StartsLine line) : StartsLine (withPseudoClass line) := by
  rcases withPseudoClass_cases line with ⟨-, hsame⟩ | ⟨before, name, hsplit, hout⟩
  · rwa [hsame]
  · obtain ⟨front, after, rfl, hbefore, -, hname⟩ := splitState?_eq_some hsplit
    obtain ⟨c, before, rfl⟩ := List.exists_cons_of_ne_nil hbefore
    rw [hout]
    refine ⟨h.visible, fun hmem => ?_⟩
    rcases List.mem_append.1 hmem with hmem | hmem
    · exact h.oneLine (List.mem_append_left _ hmem)
    · simp only [List.mem_cons, List.mem_append, List.not_mem_nil, or_false] at hmem
      rcases hmem with hcolon | hword | hspace | hbrace
      · exact absurd hcolon (by decide)
      · exact absurd (hname _ hword) (by decide)
      · exact absurd hspace (by decide)
      · exact absurd hbrace (by decide)

theorem startsLine_aliases :
    ∀ entry ∈ propertyAliases, StartsLine (entry.2 ++ ": ").toList := by
  have htable : (propertyAliases.all fun entry =>
      ((entry.2 ++ ": ").toList.head?.any fun c => !isBlank c) &&
        !(entry.2 ++ ": ").toList.contains '\n') = true := by decide
  intro entry hentry
  have hstarts := List.all_eq_true.1 htable entry hentry
  rw [Bool.and_eq_true, Option.any_eq_true] at hstarts
  obtain ⟨⟨c, hc, hvisible⟩, hnewline⟩ := hstarts
  exact ⟨⟨c, hc, by simpa using hvisible⟩, by simpa using hnewline⟩

theorem StartsLine.withProperty (h : StartsLine line) : StartsLine (withProperty line) := by
  rcases withProperty_cases line with hsame | ⟨short, property, front, value, hmem, hline, hout, -⟩
  · rwa [hsame]
  · obtain ⟨⟨c, hc, hvisible⟩, hnewline⟩ := startsLine_aliases _ hmem
    rw [hout]
    refine ⟨⟨c, ?_, hvisible⟩, fun hin => ?_⟩
    · rw [List.head?_append, hc]
      rfl
    · rcases List.mem_append.1 hin with hin | hin
      · exact hnewline hin
      · exact h.oneLine (hline ▸ List.mem_append_right front hin)

theorem StartsLine.isCssLine_terminate (h : StartsLine line) : IsCssLine (terminate line) := by
  have hended : endsWithAny ['{', '}', ';'] (terminate line) = true := by
    unfold terminate
    split
    · next hends => exact hends
    · exact endsWithAny_append rfl
  have hstarts : StartsLine (terminate line) := by
    unfold terminate
    split
    · exact h
    · obtain ⟨⟨c, hc, hvisible⟩, hnewline⟩ := h
      refine ⟨⟨c, ?_, hvisible⟩, by simp [hnewline]⟩
      rw [List.head?_append, hc]
      rfl
  refine ⟨?_, ⟨?_, ?_⟩, hended, hstarts.oneLine⟩
  · intro hnil
    rw [hnil] at hended
    cases hended
  · obtain ⟨c, hc, hvisible⟩ := hstarts.visible
    intro d hd
    rw [hc] at hd
    cases hd
    exact hvisible
  · intro c hc
    rw [endsWithAny, hc] at hended
    have hvisible : (['{', '}', ';'].all fun c => !isBlank c) = true := by decide
    simpa using List.all_eq_true.1 hvisible c (List.contains_iff_mem.1 hended)

theorem isCssLine_cssLine {cs : List Char} (h : line ∈ keptLines cs) : IsCssLine (cssLine line) := by
  obtain ⟨htrimmed, hne, hnewline⟩ := of_mem_keptLines h
  have hstarts := startsLine_withoutFor htrimmed hne hnewline
  exact hstarts.withSelector.withPseudoClass.withProperty.isCssLine_terminate

theorem toCss_of_none {source : String} (h : Verbatim.body? source.toList = none) :
    toCss source =
      terminated ((keptLines source.toList).map fun line => String.ofList (cssLine line)) := by
  rw [toCss, h]

theorem keptLines_append (cs ds : List Char) :
    keptLines (cs ++ '\n' :: ds) = keptLines cs ++ keptLines ds := by
  rw [keptLines, lines_append, List.map_append, List.filter_append]
  rfl

/-- A style source gives a line of CSS for each line that is written, in order, made from that line
alone. Two sources joined by a line end give what they give one by one. -/
theorem toCss_append_newline {a b : String} (ha : Verbatim.body? a.toList = none)
    (hb : Verbatim.body? b.toList = none) :
    keptLines a.toList = writtenLines a.toList ∧
      toCss a = terminated ((writtenLines a.toList).map fun line => String.ofList (cssLine line)) ∧
      lines (toCss a).toList = (writtenLines a.toList).map cssLine ++ [[]] ∧
      (∀ line ∈ writtenLines a.toList, IsCssLine (cssLine line)) ∧
      toCss (a ++ "\n" ++ b) = toCss a ++ toCss b := by
  rw [← keptLines_eq]
  have hcss : ∀ line ∈ keptLines a.toList, IsCssLine (cssLine line) :=
    fun line hline => isCssLine_cssLine hline
  have hjoined : (a ++ "\n" ++ b).toList = a.toList ++ '\n' :: b.toList := by simp
  have hmarker : Verbatim.body? (a ++ "\n" ++ b).toList = none := by
    rw [hjoined]
    exact Verbatim.body?_append ha hb
  refine ⟨rfl, toCss_of_none ha, ?_, hcss, ?_⟩
  · rw [toCss_of_none ha, lines_terminated, List.map_map]
    · exact congrArg (· ++ [[]]) (List.map_congr_left fun line _ => String.toList_ofList)
    · intro l hl
      obtain ⟨line, hline, rfl⟩ := List.mem_map.1 hl
      rw [String.toList_ofList]
      exact (hcss line hline).oneLine
  · apply String.ext
    rw [toCss_of_none hmarker, hjoined, keptLines_append, List.map_append, terminated_append,
      String.toList_append, toCss_of_none ha, toCss_of_none hb]

/-- Carriage returns, a comment, a blank line, and newlines at the end of the first source. -/
theorem toCss_append_newline_returns :
    Verbatim.body? " for class card when hover \x7b\r\n-- x\r\n\r\nbg:\r\n".toList = none ∧
      Verbatim.body? "\x7d\r".toList = none ∧
      toCss " for class card when hover \x7b\r\n-- x\r\n\r\nbg:\r\n" =
        ".card:hover \x7b\nbackground-color: ;\n" ∧
      toCss (" for class card when hover \x7b\r\n-- x\r\n\r\nbg:\r\n" ++ "\n" ++ "\x7d\r") =
        toCss " for class card when hover \x7b\r\n-- x\r\n\r\nbg:\r\n" ++ toCss "\x7d\r" := by
  have ha : Verbatim.body? " for class card when hover \x7b\r\n-- x\r\n\r\nbg:\r\n".toList = none := by
    decide
  have hb : Verbatim.body? "\x7d\r".toList = none := by decide
  exact ⟨ha, hb, by decide +kernel, (toCss_append_newline ha hb).2.2.2.2⟩

end Style

end EnglishPages
