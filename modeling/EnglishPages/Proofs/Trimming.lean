import EnglishPages.Text.Blank

/-!
Trimming. What is left of a text stands in it between white space, starts and ends with a visible
character, and is the text itself if that does. Only a text of white space has nothing left.
-/

open scoped List

namespace EnglishPages.Text

variable {c : Char} {cs ds : List Char}

theorem trimStart_suffix (cs : List Char) : trimStart cs <:+ cs :=
  List.dropWhile_suffix isBlank

theorem trimEnd_sublist (cs : List Char) : trimEnd cs <+ cs := by
  have h := (List.dropWhile_sublist (p := isBlank) (l := cs.reverse)).reverse
  rwa [List.reverse_reverse] at h

theorem trim_sublist (cs : List Char) : trim cs <+ cs :=
  (trimEnd_sublist _).trans (trimStart_suffix cs).sublist

theorem mem_of_mem_trim (h : c ∈ trim cs) : c ∈ cs :=
  (trim_sublist cs).mem h

theorem exists_blanks_append_trimStart (cs : List Char) :
    ∃ blanks, cs = blanks ++ trimStart cs ∧ isBlankText blanks = true :=
  ⟨cs.takeWhile isBlank, List.takeWhile_append_dropWhile.symm, List.all_takeWhile⟩

theorem trim_append_of_blank (cs : List Char) {w : List Char} (hw : isBlankText w = true) :
    trim (cs ++ w) = trim cs := by
  by_cases hcs : trimStart cs = []
  · have hw' : trimStart w = [] := dropWhile_isBlank_eq_nil (List.all_eq_true.1 hw)
    rw [trim, trim, trimStart_append_of_eq_nil hcs, hw', hcs]
  · rw [trim, trim, trimStart_append_of_ne_nil hcs, trimEnd_append_of_blank _ _ hw]

theorem isBlankText_of_dropWhile {cs : List Char}
    (h : isBlankText (cs.dropWhile isBlank) = true) : isBlankText cs = true := by
  rw [isBlankText, ← List.takeWhile_append_dropWhile (p := isBlank) (l := cs), List.all_append,
    List.all_takeWhile, Bool.true_and]
  exact h

theorem trim_eq_nil_iff {cs : List Char} : trim cs = [] ↔ isBlankText cs = true := by
  constructor
  · intro h
    have hreverse : isBlankText (trimStart cs).reverse = true :=
      isBlankText_of_dropWhile (by rw [List.reverse_eq_nil_iff.1 h]; rfl)
    rw [isBlankText, List.all_reverse] at hreverse
    exact isBlankText_of_dropWhile hreverse
  · intro h
    have hstart : trimStart cs = [] := dropWhile_isBlank_eq_nil (List.all_eq_true.1 h)
    rw [trim, hstart, trimEnd_nil]

structure IsTrimmed (cs : List Char) : Prop where
  head : ∀ c ∈ cs.head?, isBlank c = false
  last : ∀ c ∈ cs.getLast?, isBlank c = false

theorem not_blank_of_mem_head?_dropWhile {c : Char} (h : c ∈ (cs.dropWhile isBlank).head?) :
    isBlank c = false := by
  have hhead := List.head?_dropWhile_not isBlank cs
  rw [h] at hhead
  exact hhead

theorem isTrimmed_trim (cs : List Char) : IsTrimmed (trim cs) where
  head c hc := by
    obtain ⟨after, hafter⟩ : trim cs <+: trimStart cs :=
      List.reverse_suffix.1 (by simpa [trim, trimEnd] using List.dropWhile_suffix isBlank)
    have hhead : (trimStart cs).head? = some c := by
      rw [← hafter, List.head?_append, hc]
      rfl
    exact not_blank_of_mem_head?_dropWhile hhead
  last c hc := by
    rw [trim, trimEnd, List.getLast?_reverse] at hc
    exact not_blank_of_mem_head?_dropWhile hc

theorem IsTrimmed.of_forall (h : ∀ c ∈ cs, isBlank c = false) : IsTrimmed cs where
  head c hc := h c (List.mem_of_head? hc)
  last c hc := h c (List.mem_of_getLast? hc)

theorem IsTrimmed.dropWhile_eq (h : ∀ c ∈ cs.head?, isBlank c = false) :
    cs.dropWhile isBlank = cs := by
  cases cs with
  | nil => rfl
  | cons c cs => rw [List.dropWhile_cons_of_neg (by simp [h c rfl])]

theorem IsTrimmed.trim_eq (h : IsTrimmed cs) : trim cs = cs := by
  have hstart : trimStart cs = cs := dropWhile_eq h.head
  have hend : cs.reverse.dropWhile isBlank = cs.reverse :=
    dropWhile_eq fun c hc => h.last c (by simpa using hc)
  rw [trim, hstart, trimEnd, hend, List.reverse_reverse]

theorem IsTrimmed.append (hcs : IsTrimmed cs) (hds : IsTrimmed ds) : IsTrimmed (cs ++ ds) where
  head c hc := by
    rw [List.head?_append] at hc
    cases hhead : cs.head? with
    | some d =>
        rw [hhead] at hc
        exact hcs.head c (hhead.trans hc)
    | none =>
        rw [hhead] at hc
        exact hds.head c hc
  last c hc := by
    rw [List.getLast?_append] at hc
    cases hlast : ds.getLast? with
    | some d =>
        rw [hlast] at hc
        exact hds.last c (hlast.trans hc)
    | none =>
        rw [hlast] at hc
        exact hcs.last c hc

end EnglishPages.Text
