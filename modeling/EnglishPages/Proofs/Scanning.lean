import EnglishPages.Proofs.Trimming
import EnglishPages.Text.Scan

/-!
What the readers of a text leave is the end of that text, and what they take stands in it. Rules
that cut a line with several readers one after another need no more than that to know where the
characters of a part come from.
-/

open scoped List

namespace EnglishPages.Text

variable {c d : Char} {cs ds rest : List Char}

theorem afterKeyword?_suffix {ks : List Char} (h : afterKeyword? ks cs = some rest) :
    rest <:+ cs := by
  induction ks generalizing cs with
  | nil =>
      simp only [afterKeyword?_nil, Option.some.injEq] at h
      exact h ▸ List.suffix_refl cs
  | cons k ks ih =>
      cases cs with
      | nil => simp [afterKeyword?] at h
      | cons c cs =>
          simp only [afterKeyword?] at h
          split at h
          · exact (ih h).trans (List.suffix_cons c cs)
          · simp at h

theorem afterKeyword?_append {word ks : List Char} (h : word.map foldCase = ks)
    (rest : List Char) : afterKeyword? ks (word ++ rest) = some rest := by
  induction word generalizing ks with
  | nil =>
      subst h
      exact afterKeyword?_nil rest
  | cons c word ih =>
      subst h
      simp only [List.map_cons, List.cons_append, afterKeyword?, if_true]
      exact ih rfl

theorem afterBlanks?_suffix (h : afterBlanks? cs = some rest) : rest <:+ cs := by
  cases cs with
  | nil => simp [afterBlanks?] at h
  | cons c cs =>
      simp only [afterBlanks?] at h
      split at h
      · simp only [Option.some.injEq] at h
        exact h ▸ (trimStart_suffix cs).trans (List.suffix_cons c cs)
      · simp at h

theorem afterBlanks?_eq_some (h : afterBlanks? cs = some rest) :
    ∃ blanks, cs = blanks ++ rest ∧ rest = trimStart cs ∧ isBlankText blanks = true ∧
      blanks ≠ [] := by
  cases cs with
  | nil => cases h
  | cons c cs =>
      rw [afterBlanks?] at h
      split at h
      · next hc =>
          obtain ⟨blanks, hsplit, hblanks⟩ := exists_blanks_append_trimStart cs
          obtain rfl := Option.some.inj h
          refine ⟨c :: blanks, congrArg (c :: ·) hsplit, ?_, ?_, List.cons_ne_nil c blanks⟩
          · rw [trimStart, trimStart, List.dropWhile_cons_of_pos hc]
          · rw [isBlankText, List.all_cons, hc, Bool.true_and]
            exact hblanks
      · cases h

theorem afterLeading?_suffix {keyword : String} (h : afterLeading? keyword cs = some rest) :
    rest <:+ cs := by
  obtain ⟨between, hk, hb⟩ := Option.bind_eq_some_iff.1 h
  exact (afterBlanks?_suffix hb).trans (afterKeyword?_suffix hk)

theorem after?_eq_some (h : after? c cs = some rest) : cs = c :: rest := by
  cases cs with
  | nil => simp [after?] at h
  | cons d ds =>
      simp only [after?] at h
      split at h
      · simp_all
      · simp at h

theorem run?_suffix {p : Char → Bool} {w : List Char} (h : run? p cs = some (w, rest)) :
    rest <:+ cs :=
  run?_append h ▸ List.suffix_append w rest

theorem run?_all {p : Char → Bool} {w : List Char} (h : run? p cs = some (w, rest)) :
    ∀ c ∈ w, p c = true := by
  have hw : w = cs.takeWhile p := by
    unfold run? at h
    split at h
    · simp at h
    · simp_all
  intro c hc
  exact List.all_eq_true.1 List.all_takeWhile c (hw ▸ hc)

theorem run?_ne_nil {p : Char → Bool} {w : List Char} (h : run? p cs = some (w, rest)) :
    w ≠ [] := by
  rintro rfl
  unfold run? at h
  split at h <;> simp_all

theorem takeWhile_append_of_head? {p : Char → Bool}
    (hcs : ∀ c ∈ cs, p c = true) (hrest : ∀ c ∈ rest.head?, p c = false) :
    (cs ++ rest).takeWhile p = cs := by
  rw [List.takeWhile_append_of_pos hcs]
  cases rest with
  | nil => simp
  | cons c rest => simp [hrest c rfl]

theorem word?_suffix {w : List Char} (h : word? cs = some (w, rest)) : rest <:+ cs :=
  run?_suffix h

theorem word?_all {w : List Char} (h : word? cs = some (w, rest)) : ∀ c ∈ w, isWord c = true :=
  run?_all h

theorem splitFirst?_not_mem {c : Char} {before after : List Char}
    (h : splitFirst? c cs = some (before, after)) : c ∉ before := by
  induction cs generalizing before with
  | nil => simp [splitFirst?] at h
  | cons d cs ih =>
      rw [splitFirst?] at h
      split at h
      · simp_all
      · next hd =>
          obtain ⟨⟨before', after'⟩, hsplit, hbefore⟩ := Option.map_eq_some_iff.1 h
          cases hbefore
          simp only [List.mem_cons, not_or]
          exact ⟨fun hc => hd hc.symm, ih hsplit⟩

theorem splitFirst?_eq_none {c : Char} (h : splitFirst? c cs = none) : c ∉ cs := by
  induction cs with
  | nil => simp
  | cons d cs ih =>
      rw [splitFirst?] at h
      split at h
      · simp at h
      · next hd =>
          simp only [List.mem_cons, not_or]
          exact ⟨fun hc => hd hc.symm, ih (Option.map_eq_none_iff.1 h)⟩

theorem splitFirst?_of_not_mem {c : Char} {before : List Char} (h : c ∉ before)
    (after : List Char) : splitFirst? c (before ++ c :: after) = some (before, after) := by
  induction before with
  | nil => simp [splitFirst?]
  | cons d before ih =>
      obtain ⟨hd, hbefore⟩ := List.ne_and_not_mem_of_not_mem_cons h
      simp [splitFirst?, Ne.symm hd, ih hbefore]

theorem splitLast?_eq_none {c : Char} {cs : List Char} : splitLast? c cs = none ↔ c ∉ cs := by
  induction cs with
  | nil => simp [splitLast?]
  | cons d ds ih =>
      simp only [splitLast?, List.mem_cons, not_or, ← ih]
      cases splitLast? c ds with
      | some cut => simp
      | none => simp [eq_comm]

theorem splitLast?_eq_some_iff {c : Char} {cs a b : List Char} :
    splitLast? c cs = some (a, b) ↔ cs = a ++ c :: b ∧ c ∉ b := by
  constructor
  · intro h
    refine ⟨splitLast?_append h, ?_⟩
    induction cs generalizing a with
    | nil => cases h
    | cons d ds ih =>
        simp only [splitLast?] at h
        split at h
        · next hds =>
            obtain ⟨rfl, rfl⟩ := Prod.mk.inj (Option.some.inj h)
            exact ih hds
        · next hds =>
            split at h
            · obtain ⟨rfl, rfl⟩ := Prod.mk.inj (Option.some.inj h)
              exact splitLast?_eq_none.1 hds
            · cases h
  · rintro ⟨rfl, hb⟩
    induction a with
    | nil => simp [splitLast?, splitLast?_eq_none.2 hb]
    | cons d a ih => simp [splitLast?, ih]

theorem endsWithAny_append {ends cs : List Char} {ds : List Char} (h : endsWithAny ends ds = true) :
    endsWithAny ends (cs ++ ds) = true := by
  cases hlast : ds.getLast? with
  | none => simp [endsWithAny, hlast] at h
  | some c => simpa [endsWithAny, List.getLast?_append, hlast] using h

theorem not_mem_of_all {p : Char → Bool} {cs : List Char} {c : Char}
    (hall : ∀ d ∈ cs, p d = true) (hc : p c = false) : c ∉ cs := by
  intro hmem
  rw [hall c hmem] at hc
  cases hc

theorem isPrefixOf_append_cons {needle : List Char} {s : Char} (hs : s ∉ needle)
    (xs ys : List Char) : needle.isPrefixOf (xs ++ s :: ys) = needle.isPrefixOf xs := by
  induction xs generalizing needle with
  | nil =>
      cases needle with
      | nil => rfl
      | cons n ns =>
          have hn : n ≠ s := fun heq => hs (heq ▸ List.mem_cons_self)
          simp [List.isPrefixOf, hn]
  | cons x xs ih =>
      cases needle with
      | nil => rfl
      | cons n ns =>
          have hns : s ∉ ns := fun hmem => hs (List.mem_cons_of_mem n hmem)
          simp [List.isPrefixOf, ih hns]

theorem append_cons_eq_append {before after cs ds : List Char} {c : Char}
    (h : before ++ c :: after = cs ++ ds) :
    (∃ after', cs = before ++ c :: after') ∨
      ∃ before', before = cs ++ before' ∧ ds = before' ++ c :: after := by
  rcases List.append_eq_append_iff.1 h with ⟨more, hcs, htail⟩ | ⟨more, hbefore, hds⟩
  · cases more with
    | nil => exact .inr ⟨[], by simpa using hcs.symm, by simpa using htail.symm⟩
    | cons d more =>
        obtain ⟨rfl, -⟩ := List.cons.inj htail
        exact .inl ⟨more, hcs⟩
  · exact .inr ⟨more, hbefore, hds⟩

def blankRanges : List (Nat × Nat) :=
  [(9, 13), (0x20, 0x20), (0x85, 0x85), (0xA0, 0xA0), (0x1680, 0x1680), (0x2000, 0x200A),
   (0x2028, 0x2029), (0x202F, 0x202F), (0x205F, 0x205F), (0x3000, 0x3000)]

theorem mem_blankRanges (h : isBlank c = true) :
    ∃ r ∈ blankRanges, r.1 ≤ c.toNat ∧ c.toNat ≤ r.2 := by
  simp only [isBlank, Bool.or_eq_true, Bool.and_eq_true, decide_eq_true_eq, beq_iff_eq] at h
  simp only [blankRanges, List.mem_cons, List.not_mem_nil, or_false, exists_eq_or_imp,
    exists_eq_left]
  omega

theorem isBlank_of_isWord (h : isWord c = true) : isBlank c = false := by
  by_cases hascii : c.toNat < 128
  · have hall : ∀ n < 128, isWord (Char.ofNat n) = true → isBlank (Char.ofNat n) = false := by
      decide +kernel
    have hc := hall c.toNat hascii
    rw [Char.ofNat_toNat] at hc
    exact hc h
  · have hapart : (wordRanges.all fun w => blankRanges.all fun r => r.2 < w.1 || w.2 < r.1) =
        true := by decide +kernel
    simp only [isWord, if_neg hascii, List.any_eq_true, Bool.and_eq_true, decide_eq_true_eq] at h
    obtain ⟨w, hw, hlow, hhigh⟩ := h
    refine Bool.eq_false_iff.2 fun hblank => ?_
    obtain ⟨r, hr, hblank⟩ := mem_blankRanges hblank
    have hdisjoint := List.all_eq_true.1 (List.all_eq_true.1 hapart w hw) r hr
    simp only [Bool.or_eq_true, decide_eq_true_eq] at hdisjoint
    omega

/-- What a reader leaves of a line ends with the line, so it holds the last character of the line
last or not at all. -/
theorem dropLast_sublist_of_suffix (h : ds <:+ cs) : ds.dropLast <+ cs.dropLast := by
  obtain ⟨front, rfl⟩ := h
  cases ds with
  | nil => exact List.nil_sublist _
  | cons d ds =>
      rw [List.dropLast_append_cons]
      exact List.sublist_append_right front _

end EnglishPages.Text
