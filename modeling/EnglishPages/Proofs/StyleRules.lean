import EnglishPages.Proofs.Braces
import EnglishPages.Proofs.Scanning
import EnglishPages.Style

/-!
What the rules of the style dialect do to a line. Each rule leaves the line as it is, or takes a text
without braces out of it and writes one of its own: a leading `for` goes, a keyword in front of a name
becomes the sigil, a short name becomes the property. The rule for states is the one that takes more:
it writes the line anew up to the state's brace, and what stands behind that brace goes too.

Later proofs use these descriptions and look into no rule.
-/

namespace EnglishPages

namespace Text

variable {cs rest : List Char}

theorem exists_braceless_of_afterKeyword? {ks : List Char} (hks : Braceless ks)
    (h : afterKeyword? ks cs = some rest) : ∃ front, cs = front ++ rest ∧ Braceless front := by
  induction ks generalizing cs with
  | nil =>
      rw [afterKeyword?_nil] at h
      exact ⟨[], Option.some.inj h, List.forall_mem_nil _⟩
  | cons k ks ih =>
      obtain ⟨hk, hks⟩ := List.forall_mem_cons.1 hks
      cases cs with
      | nil => cases h
      | cons c cs =>
          rw [afterKeyword?] at h
          split at h
          · next hc =>
              obtain ⟨front, rfl, hfront⟩ := ih hks h
              refine ⟨c :: front, rfl, List.forall_mem_cons.2 ⟨?_, hfront⟩⟩
              constructor
              · rintro rfl
                exact hk.1 hc.symm
              · rintro rfl
                exact hk.2 hc.symm
          · cases h

theorem exists_braceless_of_afterLeading? {keyword : String} (hkeyword : Braceless keyword.toList)
    (h : afterLeading? keyword cs = some rest) :
    ∃ front, cs = front ++ rest ∧ Braceless front ∧ (∃ c ∈ front.getLast?, isBlank c = true) ∧
      ∀ c ∈ rest.head?, isBlank c = false := by
  obtain ⟨between, hbetween, hafter⟩ := Option.bind_eq_some_iff.1 h
  obtain ⟨front, rfl, hfront⟩ := exists_braceless_of_afterKeyword? hkeyword hbetween
  obtain ⟨blanks, rfl, hrest, hblanks, hne⟩ := afterBlanks?_eq_some hafter
  refine ⟨front ++ blanks, (List.append_assoc front blanks rest).symm,
    braceless_append.2 ⟨hfront, braceless_of_blank hblanks⟩, ⟨blanks.getLast hne, ?_, ?_⟩,
    fun c hc => ?_⟩
  · rw [List.getLast?_append, List.getLast?_eq_some_getLast hne]
    rfl
  · exact List.all_eq_true.1 hblanks _ (List.getLast_mem hne)
  · have hhead := List.head?_dropWhile_not isBlank (blanks ++ rest)
    rw [← trimStart, ← hrest, hc] at hhead
    exact hhead

end Text

namespace Style

open Text

theorem withoutFor_cases (line : List Char) :
    withoutFor line = line ∨
      ∃ front, line = front ++ withoutFor line ∧ Braceless front ∧
        (∃ c ∈ front.getLast?, isBlank c = true) ∧
        ∀ c ∈ (withoutFor line).head?, isBlank c = false := by
  rw [withoutFor]
  cases hfor : afterLeading? "for" line with
  | none => exact .inl rfl
  | some rest => exact .inr (exists_braceless_of_afterLeading? (by decide) hfor)

theorem selector?_eq_some {keyword : String} {sigil : Char} {line out : List Char}
    (hkeyword : Braceless keyword.toList) (h : selector? keyword sigil line = some out) :
    ∃ front name rest, line = front ++ (name ++ rest) ∧ out = sigil :: (name ++ rest) ∧
      Braceless front ∧ Braceless name ∧ name ≠ [] := by
  obtain ⟨named, hnamed, hselector⟩ := Option.bind_eq_some_iff.1 h
  obtain ⟨⟨name, rest⟩, hname, hout⟩ := Option.bind_eq_some_iff.1 hselector
  obtain ⟨front, hline, hfront, -⟩ := exists_braceless_of_afterLeading? hkeyword hnamed
  simp only at hout
  split at hout
  · cases hout
    refine ⟨front, name, rest, ?_, rfl, hfront, braceless_of_word (word?_all hname),
      run?_ne_nil hname⟩
    rw [hline, run?_append hname]
  · cases hout

theorem withSelector_cases (line : List Char) :
    withSelector line = line ∨
      ∃ sigil front name rest, line = front ++ (name ++ rest) ∧
        withSelector line = sigil :: (name ++ rest) ∧ (sigil = '.' ∨ sigil = '#') ∧
        Braceless front ∧ Braceless name ∧ name ≠ [] := by
  rw [withSelector]
  cases hclass : selector? "class" '.' line with
  | some out =>
      obtain ⟨front, name, rest, hline, rfl, hbraceless⟩ := selector?_eq_some (by decide) hclass
      exact .inr ⟨'.', front, name, rest, hline, rfl, .inl rfl, hbraceless⟩
  | none =>
      cases hid : selector? "id" '#' line with
      | some out =>
          obtain ⟨front, name, rest, hline, rfl, hbraceless⟩ := selector?_eq_some (by decide) hid
          exact .inr ⟨'#', front, name, rest, hline, rfl, .inr rfl, hbraceless⟩
      | none => exact .inl rfl

theorem state?_eq_some {cs name : List Char} (h : state? cs = some name) :
    ∃ front after, cs = front ++ '{' :: after ∧ Braceless front ∧ ∀ c ∈ name, isWord c = true := by
  obtain ⟨visible, hvisible, h⟩ := Option.bind_eq_some_iff.1 h
  obtain ⟨named, hnamed, h⟩ := Option.bind_eq_some_iff.1 h
  obtain ⟨⟨name', rest⟩, hname, h⟩ := Option.bind_eq_some_iff.1 h
  obtain ⟨after, hbrace, h⟩ := Option.bind_eq_some_iff.1 h
  obtain rfl : name' = name := Option.some.inj h
  obtain ⟨blanks, hblanks, -, hblank, -⟩ := afterBlanks?_eq_some hvisible
  obtain ⟨keyword, hkeyword, hwhen, -⟩ := exists_braceless_of_afterLeading? (by decide) hnamed
  obtain ⟨gap, hgap, hgapBlank⟩ := exists_blanks_append_trimStart rest
  have hword := word?_all hname
  refine ⟨blanks ++ (keyword ++ (name' ++ gap)), after, ?_, ?_, hword⟩
  · rw [after?_eq_some hbrace] at hgap
    rw [hkeyword, run?_append hname, hgap] at hblanks
    simpa only [List.append_assoc] using hblanks
  · simp only [braceless_append]
    exact ⟨braceless_of_blank hblank, hwhen, braceless_of_word hword,
      braceless_of_blank hgapBlank⟩

theorem splitState?_eq_some {line before name : List Char}
    (h : splitState? line = some (before, name)) :
    ∃ front after, line = before ++ (front ++ '{' :: after) ∧ before ≠ [] ∧ Braceless front ∧
      ∀ c ∈ name, isWord c = true := by
  induction line generalizing before with
  | nil => cases h
  | cons c cs ih =>
      rw [splitState?] at h
      split at h
      · next hstate =>
          cases h
          obtain ⟨front, after, rfl, hfront, hname⟩ := state?_eq_some hstate
          exact ⟨front, after, rfl, List.cons_ne_nil c [], hfront, hname⟩
      · obtain ⟨⟨before', name'⟩, hsplit, heq⟩ := Option.map_eq_some_iff.1 h
        cases heq
        obtain ⟨front, after, rfl, -, hfront, hname⟩ := ih hsplit
        exact ⟨front, after, rfl, List.cons_ne_nil c before', hfront, hname⟩

theorem withPseudoClass_cases (line : List Char) :
    splitState? line = none ∧ withPseudoClass line = line ∨
      ∃ before name, splitState? line = some (before, name) ∧
        withPseudoClass line = before ++ ':' :: (name ++ [' ', '{']) := by
  rw [withPseudoClass]
  cases hsplit : splitState? line with
  | none => exact .inl ⟨rfl, rfl⟩
  | some state => exact .inr ⟨state.1, state.2, rfl, by simp⟩

theorem braceless_aliases : ∀ entry ∈ propertyAliases,
    Braceless entry.1.toList ∧ Braceless (entry.2 ++ ": ").toList := by
  refine List.forall_mem_iff_forall_getElem.2 ?_
  decide

theorem withProperty_cases (line : List Char) :
    withProperty line = line ∨
      ∃ short property front value, (short, property) ∈ propertyAliases ∧
        line = front ++ value ∧ withProperty line = (property ++ ": ").toList ++ value ∧
        Braceless front := by
  have hfirst : withProperty line = (propertyAliases.findSome? fun entry =>
      (afterAlias? entry.1 line).map ((entry.2 ++ ": ").toList ++ ·)).getD line := rfl
  rw [hfirst]
  cases hfound : propertyAliases.findSome? fun entry =>
      (afterAlias? entry.1 line).map ((entry.2 ++ ": ").toList ++ ·) with
  | none => exact .inl rfl
  | some out =>
      obtain ⟨⟨short, property⟩, hmem, hout⟩ := List.exists_of_findSome?_eq_some hfound
      obtain ⟨value, hvalue, rfl⟩ := Option.map_eq_some_iff.1 hout
      obtain ⟨keyword, hkeyword, h⟩ := Option.bind_eq_some_iff.1 hvalue
      obtain ⟨behind, hcolon, h⟩ := Option.bind_eq_some_iff.1 h
      obtain ⟨name, rfl, hname⟩ :=
        exists_braceless_of_afterKeyword? (braceless_aliases _ hmem).1 hkeyword
      obtain ⟨blanks, hblanks, hblank⟩ := exists_blanks_append_trimStart behind
      rw [Option.some.inj h] at hblanks
      refine .inr ⟨short, property, name ++ ':' :: blanks, value, hmem, ?_, rfl, ?_⟩
      · rw [after?_eq_some hcolon, hblanks]
        simp
      · exact braceless_append.2
          ⟨hname, List.forall_mem_cons.2 ⟨by decide, braceless_of_blank hblank⟩⟩

end Style

end EnglishPages
