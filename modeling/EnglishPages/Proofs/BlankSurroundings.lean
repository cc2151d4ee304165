import EnglishPages.Proofs.LetterCase
import EnglishPages.Proofs.ScriptComments

/-!
White space around a script source. A phrase neither starts nor ends with white space, so no idiom
reaches into the lines before or behind a source that hold nothing else. Such lines close blocks. In
front of the source there are none to close; behind it they close one after another what the end of
the source would close at once, by the same lines.
-/

namespace EnglishPages.Script

open Text

/-- What is taken from the front of `cs` to leave `rest` ends in a character that is no white
space. -/
def EndsVisibly (cs rest : List Char) : Prop :=
  ∃ front c, cs = front ++ c :: rest ∧ isBlank c = false

section

variable {cs ds out rest : List Char}

theorem EndsVisibly.of_suffix (h : EndsVisibly ds rest) (hds : ds <:+ cs) :
    EndsVisibly cs rest := by
  obtain ⟨front, c, rfl, hc⟩ := h
  obtain ⟨before, rfl⟩ := hds
  exact ⟨before ++ front, c, (List.append_assoc before front _).symm, hc⟩

theorem endsVisibly_run {p : Char → Bool} {w : List Char} (hp : ∀ c, p c = true → isBlank c = false)
    (h : run? p cs = some (w, rest)) : EndsVisibly cs rest := by
  have hne := run?_ne_nil h
  refine ⟨w.dropLast, w.getLast hne, ?_, hp _ (run?_all h _ (List.getLast_mem hne))⟩
  rw [run?_append h, ← List.singleton_append, ← List.append_assoc, List.dropLast_concat_getLast]

theorem isBlank_of_isDecimalDigit {c : Char} (h : isDecimalDigit c = true) : isBlank c = false := by
  have hapart : (zeros.all fun z => blankRanges.all fun r => r.2 < z || z + 10 ≤ r.1) = true := by
    decide +kernel
  refine Bool.eq_false_iff.2 fun hblank => ?_
  obtain ⟨r, hr, hlow, hhigh⟩ := mem_blankRanges hblank
  rcases Bool.or_eq_true_iff.1 h with hdigit | hzero
  · have hascii : ∀ r ∈ blankRanges, r.2 < 48 ∨ 57 < r.1 := by decide
    have hrange := Text.isDigit_iff.1 hdigit
    have hr := hascii r hr
    omega
  · obtain ⟨z, hz, hrange⟩ := List.any_eq_true.1 hzero
    have hdisjoint := List.all_eq_true.1 (List.all_eq_true.1 hapart z hz) r hr
    simp only [Bool.or_eq_true, Bool.and_eq_true, decide_eq_true_eq] at hdisjoint hrange
    omega

theorem endsVisibly_quoted {inside : List Char} (h : quoted? cs = some (inside, rest)) :
    EndsVisibly cs rest := by
  obtain ⟨q, q', -, hquote, -, -, rfl⟩ := quoted?_eq_some_iff.1 h
  refine ⟨q :: inside, q', rfl, ?_⟩
  rcases hquote with rfl | rfl
  · decide
  · decide

theorem endsVisibly_lookup {phrase method : String}
    (h : lookup phrase method cs = some (out, rest)) : EndsVisibly cs rest := by
  obtain ⟨between, hbetween, h⟩ := Option.bind_eq_some_iff.1 h
  obtain ⟨⟨inside, rest'⟩, hinside, hout⟩ := Option.bind_eq_some_iff.1 h
  obtain ⟨-, rfl⟩ := Prod.mk.inj (Option.some.inj hout)
  exact (endsVisibly_quoted hinside).of_suffix (afterLeading?_suffix hbetween)

theorem endsVisibly_animationFrame {phrase : String}
    (h : animationFrame phrase cs = some (out, rest)) : EndsVisibly cs rest := by
  obtain ⟨between, hbetween, h⟩ := Option.bind_eq_some_iff.1 h
  obtain ⟨⟨name, rest'⟩, hname, hout⟩ := Option.bind_eq_some_iff.1 h
  obtain ⟨-, rfl⟩ := Prod.mk.inj (Option.some.inj hout)
  exact (endsVisibly_run (fun _ => isBlank_of_isWord) hname).of_suffix
    (afterLeading?_suffix hbetween)

theorem endsVisibly_countingLoop (h : countingLoop cs = some (out, rest)) :
    EndsVisibly cs rest := by
  obtain ⟨_, hfor, h⟩ := Option.bind_eq_some_iff.1 h
  obtain ⟨⟨name, _⟩, hname, h⟩ := Option.bind_eq_some_iff.1 h
  obtain ⟨_, hblanks, h⟩ := Option.bind_eq_some_iff.1 h
  obtain ⟨_, hfrom, h⟩ := Option.bind_eq_some_iff.1 h
  obtain ⟨⟨low, _⟩, hlow, h⟩ := Option.bind_eq_some_iff.1 h
  obtain ⟨_, hblanks', h⟩ := Option.bind_eq_some_iff.1 h
  obtain ⟨_, hto, h⟩ := Option.bind_eq_some_iff.1 h
  obtain ⟨⟨high, _⟩, hhigh, hout⟩ := Option.bind_eq_some_iff.1 h
  obtain ⟨-, rfl⟩ := Prod.mk.inj (Option.some.inj hout)
  refine (endsVisibly_run (fun _ => isBlank_of_isDecimalDigit) hhigh).of_suffix ?_
  exact (afterLeading?_suffix hto).trans <| (afterBlanks?_suffix hblanks').trans <|
    (run?_suffix hlow).trans <| (afterLeading?_suffix hfrom).trans <|
    (afterBlanks?_suffix hblanks).trans <| (word?_suffix hname).trans (afterLeading?_suffix hfor)

end

theorem afterLeading?_of_isBlank {keyword : String} {c : Char}
    (hkeyword : keyword.toList.head?.map isBlank = some false) (hc : isBlank c = true)
    (cs : List Char) : afterLeading? keyword (c :: cs) = none := by
  refine Option.eq_none_iff_forall_ne_some.2 fun rest h => ?_
  obtain ⟨between, hbetween, -⟩ := Option.bind_eq_some_iff.1 h
  obtain ⟨k, hhead, hk⟩ := Option.map_eq_some_iff.1 hkeyword
  obtain ⟨ks, hks⟩ := List.head?_eq_some_iff.1 hhead
  have hfold := map_foldCase_of_afterKeyword? hbetween
  rw [hks, List.map_cons, List.cons_append] at hfold
  rw [← (List.cons.inj hfold).1, isBlank_foldCase, hc] at hk
  cases hk

structure Visible (idiom : Idiom) : Prop where
  starts : ∀ {c}, isBlank c = true → ∀ cs, idiom (c :: cs) = none
  ends : ∀ {cs out rest}, idiom cs = some (out, rest) → EndsVisibly cs rest

theorem visible_idioms : ∀ idiom ∈ idioms, Visible idiom := by
  have hstarts {keyword : String} (hkeyword : keyword.toList.head?.map isBlank = some false)
      {α : Type} (next : List Char → Option α) {c : Char} (hc : isBlank c = true)
      (cs : List Char) : (afterLeading? keyword (c :: cs)).bind next = none := by
    rw [afterLeading?_of_isBlank hkeyword hc, Option.bind_none]
  simp only [idioms, List.forall_mem_cons, List.not_mem_nil, false_imp_iff, implies_true, and_true]
  exact ⟨⟨hstarts rfl _, endsVisibly_lookup⟩, ⟨hstarts rfl _, endsVisibly_lookup⟩,
    ⟨hstarts rfl _, endsVisibly_animationFrame⟩, ⟨hstarts rfl _, endsVisibly_animationFrame⟩,
    ⟨hstarts rfl _, endsVisibly_countingLoop⟩⟩

section Replacing

variable {idiom : Idiom} {v w : List Char}

theorem replaceAll_blank_append (hidiom : Visible idiom) (hv : isBlankText v = true)
    (cs : List Char) : replaceAll idiom (v ++ cs) = v ++ replaceAll idiom cs := by
  induction v with
  | nil => rfl
  | cons c v ih =>
      obtain ⟨hc, hv⟩ := List.forall_mem_cons.1 (List.all_eq_true.1 hv)
      rw [List.cons_append, replaceAll_cons_of_none (hidiom.starts hc _),
        ih (List.all_eq_true.2 hv), List.cons_append]

theorem Visible.staysIn (hidiom : Visible idiom) (cs : List Char) (hw : isBlankText w = true) :
    StaysIn idiom cs w := by
  intro n _ r hr
  obtain ⟨front, c, hphrase, hc⟩ := hidiom.ends hr
  refine Nat.le_of_not_lt fun hlt => ?_
  -- A phrase that went on into `w` would end there.
  have hend : c :: r.2 <:+ w :=
    List.suffix_of_suffix_length_le ⟨front, hphrase.symm⟩ (List.suffix_append _ w) hlt
  rw [List.all_eq_true.1 hw c (hend.mem List.mem_cons_self)] at hc
  cases hc

theorem replaceAll_surrounded (hcut : Cuttable idiom) (hidiom : Visible idiom)
    (hv : isBlankText v = true) (hw : isBlankText w = true) (hedge : Edge w) (cs : List Char) :
    replaceAll idiom (v ++ (cs ++ w)) = v ++ (replaceAll idiom cs ++ w) := by
  have hblank : replaceAll idiom w = w := by
    have hnil : replaceAll idiom [] = [] := rfl
    have h := replaceAll_blank_append hidiom hw []
    rwa [hnil, List.append_nil] at h
  rw [replaceAll_blank_append hidiom hv, replaceAll_append hcut hedge (hidiom.staysIn cs hw),
    hblank]

theorem expandIdioms_surrounded (hv : isBlankText v = true) (hw : isBlankText w = true)
    (hedge : Edge w) (cs : List Char) :
    expandIdioms (v ++ (cs ++ w)) = v ++ (expandIdioms cs ++ w) := by
  have hexpand {is : List Idiom} (his : ∀ idiom ∈ is, idiom ∈ idioms) (cs : List Char) :
      expand is (v ++ (cs ++ w)) = v ++ (expand is cs ++ w) := by
    induction is generalizing cs with
    | nil => rfl
    | cons idiom rest ih =>
        have hmem : idiom ∈ idioms := his idiom List.mem_cons_self
        have hreplace := replaceAll_surrounded (cuttable_idioms idiom hmem)
          (visible_idioms idiom hmem) hv hw hedge cs
        change expand rest (replaceAll idiom _) = v ++ (expand rest (replaceAll idiom cs) ++ w)
        rw [hreplace, ih fun idiom hmem => his idiom (List.mem_cons_of_mem _ hmem)]
  exact hexpand (fun _ hmem => hmem) cs

theorem expandIdioms_blank (hw : isBlankText w = true) : expandIdioms w = w := by
  have hnil : expandIdioms [] = [] := rfl
  have h := expandIdioms_surrounded hw rfl (w := []) (by simp [Edge]) []
  rwa [hnil, List.append_nil, List.append_nil] at h

end Replacing

theorem processedLines_blank {w : List Char} (hw : isBlankText w = true) :
    ∀ line ∈ processedLines w, line = [] := by
  intro line hline
  rw [processedLines, expandIdioms_blank hw] at hline
  obtain ⟨piece, hpiece, rfl⟩ := List.mem_map.1 hline
  have hblank : ∀ c ∈ withoutComment piece, isBlank c = true := by
    intro c hc
    have hmem : c ∈ piece := by
      rw [← withoutComment_append_commentOf piece]
      exact List.mem_append_left _ hc
    exact List.all_eq_true.1 hw c (mem_of_mem_pieces hpiece hmem)
  rw [trim, trimStart, dropWhile_isBlank_eq_nil hblank, trimEnd_nil]

namespace BlockStack

theorem step_nil (s : BlockStack) : s.step [] = s.closeInnermost := by
  simp [step, show Statement.isTopLevel [] = false from rfl,
    show ∀ b, Statement.read b [] = .blank from fun _ => rfl, perform]

variable {blanks : List (List Char)} (hblanks : ∀ line ∈ blanks, line = [])
include hblanks

theorem run_blanks (s : BlockStack) : s.run blanks = s.closeAll.2 := by
  induction blanks generalizing s with
  | nil => rfl
  | cons line rest ih =>
      obtain ⟨rfl, hrest⟩ := List.forall_mem_cons.1 hblanks
      rw [run_cons, step_nil, ih hrest]
      obtain ⟨ks⟩ := s
      cases ks with
      | nil => rfl
      | cons k ks => rfl

theorem run_empty_blanks_append (ls : List (List Char)) :
    empty.run (blanks ++ ls) = empty.run ls := by
  induction blanks with
  | nil => rfl
  | cons line rest ih =>
      obtain ⟨rfl, hrest⟩ := List.forall_mem_cons.1 hblanks
      rw [List.cons_append, run_cons, step_nil]
      exact ih hrest

theorem run_append_blanks (s : BlockStack) (ls : List (List Char)) :
    s.run (ls ++ blanks) = s.run ls := by
  have hclosed := run_append s ls []
  rw [List.append_nil] at hclosed
  rw [run_append, run_blanks hblanks, hclosed]
  rfl

end BlockStack

/-- Lines of white space before and behind a source leave its script as it is. -/
theorem toJavaScript_surrounded {source w : String} (h : Verbatim.body? source.toList = none)
    (hw : isBlankText w.toList = true) :
    toJavaScript (w ++ "\n" ++ source) = toJavaScript source ∧
      toJavaScript (source ++ "\n" ++ w) = toJavaScript source := by
  have hnone : Verbatim.body? w.toList = none := by
    have happend := Verbatim.body?_append_of_blank w.toList [] hw
    rwa [List.append_nil] at happend
  have hlines := processedLines_blank hw
  constructor
  · have hsource : (w ++ "\n" ++ source).toList = w.toList ++ '\n' :: source.toList := by simp
    have hbefore : expandIdioms (w.toList ++ '\n' :: source.toList) =
        expandIdioms w.toList ++ '\n' :: expandIdioms source.toList := by
      have hexpand := expandIdioms_surrounded (isBlankText_append_newline hw) rfl (w := [])
        (by simp [Edge]) source.toList
      simpa [expandIdioms_blank hw] using hexpand
    rw [toJavaScript_of_none (hsource ▸ Verbatim.body?_append hnone h), toJavaScript_of_none h,
      hsource, processedLines_append hbefore, BlockStack.run_empty_blanks_append hlines]
  · have hsource : (source ++ "\n" ++ w).toList = source.toList ++ '\n' :: w.toList := by simp
    have hbehind : expandIdioms (source.toList ++ '\n' :: w.toList) =
        expandIdioms source.toList ++ '\n' :: expandIdioms w.toList := by
      have hexpand := expandIdioms_surrounded rfl (v := []) (w := '\n' :: w.toList) hw
        (by simp [Edge]) source.toList
      simpa [expandIdioms_blank hw] using hexpand
    rw [toJavaScript_of_none (hsource ▸ Verbatim.body?_append h hnone), toJavaScript_of_none h,
      hsource, processedLines_append hbehind, BlockStack.run_append_blanks hlines]

/-- Three blocks are open at the end of the source, and the white space has two lines. -/
theorem toJavaScript_surrounded_open_class :
    (BlockStack.empty.after (processedLines "class A\nm()\nwhen (x)".toList)).kinds =
        [.conditional, .method, .classBody] ∧
      toJavaScript ("\t\n\u3000" ++ "\n" ++ "class A\nm()\nwhen (x)") =
        toJavaScript "class A\nm()\nwhen (x)" ∧
      toJavaScript ("class A\nm()\nwhen (x)" ++ "\n" ++ "\t\n\u3000") =
        toJavaScript "class A\nm()\nwhen (x)" :=
  ⟨by decide +kernel, toJavaScript_surrounded (by decide +kernel) (by decide +kernel)⟩

end EnglishPages.Script
