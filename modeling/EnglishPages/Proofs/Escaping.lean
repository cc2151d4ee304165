import EnglishPages.Html.Escape

/-!
Escaped texts can be read back. An escaped text has no delimiter in it, and an ampersand only at
the start of an entity, so whoever replaces the entities from left to right never takes for one what
the text itself had: the ampersand of a text that looks like an entity is written as an entity.

Escaping goes character by character. Where a text is cut, and how much of it is copied without
looking at its characters, makes no difference.
-/

namespace EnglishPages.Html

/-- A text with its entities replaced by their characters, from left to right. -/
def decode : List Char → List Char
  | '&' :: 'a' :: 'm' :: 'p' :: ';' :: cs => '&' :: decode cs
  | '&' :: 'l' :: 't' :: ';' :: cs => '<' :: decode cs
  | '&' :: 'g' :: 't' :: ';' :: cs => '>' :: decode cs
  | '&' :: 'q' :: 'u' :: 'o' :: 't' :: ';' :: cs => '"' :: decode cs
  | '&' :: '#' :: '0' :: '3' :: '9' :: ';' :: cs => '\'' :: decode cs
  | c :: cs => c :: decode cs
  | [] => []

def unescape (text : String) : String :=
  String.ofList (decode text.toList)

variable {c : Char} {e : String}

theorem ne_ampersand_of_entity? (h : entity? c = none) : c ≠ '&' := by
  rintro rfl
  cases h

theorem decode_cons (h : c ≠ '&') (cs : List Char) : decode (c :: cs) = c :: decode cs := by
  rw [decode.eq_def]
  split <;> simp_all

theorem decode_entity (h : entity? c = some e) (cs : List Char) :
    decode (e.toList ++ cs) = c :: decode cs := by
  unfold entity? at h
  repeat' split at h
  all_goals cases h
  all_goals
    subst c
    rfl

theorem decode_flatMap_escapeChar (cs : List Char) : decode (cs.flatMap escapeChar) = cs := by
  induction cs with
  | nil => rfl
  | cons c cs ih =>
      rw [List.flatMap_cons]
      cases h : entity? c with
      | none =>
          rw [escapeChar_of_none h, List.singleton_append, decode_cons (ne_ampersand_of_entity? h), ih]
      | some e => rw [escapeChar_of_some h, decode_entity h, ih]

theorem unescape_escape (text : String) : unescape (escape text) = text := by
  rw [unescape, toList_escape, decode_flatMap_escapeChar, String.ofList_toList]

theorem suffix_of_not_mem {front rest after : List Char} (hc : c ∉ front)
    (h : c :: after <:+ front ++ rest) : c :: after <:+ rest := by
  induction front with
  | nil => exact h
  | cons d front ih =>
      obtain ⟨hd, hfront⟩ := List.ne_and_not_mem_of_not_mem_cons hc
      rcases List.suffix_cons_iff.1 h with hwhole | hlater
      · exact absurd (List.cons.inj hwhole).1 hd
      · exact ih hfront hlater

theorem exists_toList_of_mem_entities (h : e ∈ entities) :
    ∃ name, e.toList = '&' :: name ∧ '&' ∉ name := by
  simp only [entities, List.mem_cons, List.not_mem_nil, or_false] at h
  obtain rfl | rfl | rfl | rfl | rfl := h
  all_goals exact ⟨_, rfl, by decide⟩

theorem entity_of_suffix_flatMap {cs after : List Char}
    (h : '&' :: after <:+ cs.flatMap escapeChar) : ∃ e ∈ entities, e.toList <+: '&' :: after := by
  induction cs with
  | nil => cases List.suffix_nil.1 h
  | cons c cs ih =>
      rw [List.flatMap_cons] at h
      cases hentity : entity? c with
      | none =>
          rw [escapeChar_of_none hentity] at h
          have hc : '&' ∉ [c] := fun hmem =>
            ne_ampersand_of_entity? hentity (List.mem_singleton.1 hmem).symm
          exact ih (suffix_of_not_mem hc h)
      | some e =>
          have he : e ∈ entities := mem_entities hentity
          obtain ⟨name, htext, hname⟩ := exists_toList_of_mem_entities he
          rw [escapeChar_of_some hentity, htext] at h
          rcases List.suffix_cons_iff.1 h with hwhole | hlater
          · refine ⟨e, he, cs.flatMap escapeChar, ?_⟩
            rw [htext]
            exact hwhole.symm
          · exact ih (suffix_of_not_mem hname hlater)

theorem escape_append (a b : String) : escape (a ++ b) = escape a ++ escape b := by
  apply String.ext
  rw [String.toList_append]
  simp only [toList_escape, String.toList_append, List.flatMap_append]

/-- An escaped text has no delimiter in it, each of its ampersands starts an entity, and replacing
the entities from left to right gives the text back. What is copied up to the first character that
has an entity, or as a whole if there is none, is what writing each character gives; so a text may be
escaped in parts, and no two texts are written alike. -/
theorem escape_unambiguous :
    (∀ text, (∀ c ∈ delimiters, c ∉ (escape text).toList) ∧
      (∀ after, '&' :: after <:+ (escape text).toList →
        ∃ e ∈ entities, e.toList <+: '&' :: after) ∧
      unescape (escape text) = text ∧
      escape text = String.ofList (text.toList.flatMap escapeChar)) ∧
    (∀ a b, escape (a ++ b) = escape a ++ escape b) ∧
    Function.Injective escape := by
  refine ⟨fun text => ⟨fun c hc => not_mem_escape hc text, fun after h => ?_, unescape_escape text,
    ?_⟩, escape_append, fun a b h => ?_⟩
  · rw [toList_escape] at h
    exact entity_of_suffix_flatMap h
  · rw [← toList_escape, String.ofList_toList]
  · rw [← unescape_escape a, h, unescape_escape]

/-- A text that has an entity in it, and behind it a character that needs one. -/
theorem escape_unambiguous_entity_in_text :
    '<' ∈ delimiters ∧ '<' ∉ (escape "é&lt;<").toList ∧
      '&' :: "amp;lt;&lt;".toList <:+ (escape "é&lt;<").toList ∧
      (∃ e ∈ entities, e.toList <+: '&' :: "amp;lt;&lt;".toList) ∧
      unescape (escape "é&lt;<") = "é&lt;<" ∧
      escape "é&lt;<" = escape "é&lt;" ++ escape "<" := by
  have hampersand : '&' :: "amp;lt;&lt;".toList <:+ (escape "é&lt;<").toList := by decide
  obtain ⟨htext, happend, -⟩ := escape_unambiguous
  obtain ⟨hdelimiters, hentities, hback, -⟩ := htext "é&lt;<"
  exact ⟨by decide, hdelimiters '<' (by decide), hampersand, hentities _ hampersand, hback,
    happend "é&lt;" "<"⟩

end EnglishPages.Html
