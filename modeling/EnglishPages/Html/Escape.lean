/-!
Escaping for HTML. The five characters that could end a text or an attribute value are written as
entities; every other character stands for itself.
-/

namespace EnglishPages.Html

def entity? (c : Char) : Option String :=
  if c = '&' then some "&amp;"
  else if c = '<' then some "&lt;"
  else if c = '>' then some "&gt;"
  else if c = '"' then some "&quot;"
  else if c = '\'' then some "&#039;"
  else none

def escapeChar (c : Char) : List Char :=
  match entity? c with
  | some entity => entity.toList
  | none => [c]

theorem escapeChar_of_none {c : Char} (h : entity? c = none) : escapeChar c = [c] := by
  rw [escapeChar, h]

theorem escapeChar_of_some {c : Char} {entity : String} (h : entity? c = some entity) :
    escapeChar c = entity.toList := by
  rw [escapeChar, h]

def standsForItself (c : Char) : Bool :=
  (entity? c).isNone

/-- A text in which every character stands for itself is left as it is. Any other is copied up to
the first character that has an entity, and written character by character from there on. -/
def escape (text : String) : String :=
  match text.toList.dropWhile standsForItself with
  | [] => text
  | rest => String.ofList (text.toList.takeWhile standsForItself ++ rest.flatMap escapeChar)

theorem flatMap_escapeChar_of_all {cs : List Char} (h : ∀ c ∈ cs, standsForItself c = true) :
    cs.flatMap escapeChar = cs := by
  induction cs with
  | nil => rfl
  | cons c cs ih =>
      obtain ⟨hc, hcs⟩ := List.forall_mem_cons.1 h
      have hself := escapeChar_of_none (Option.isNone_iff_eq_none.1 hc)
      rw [List.flatMap_cons, hself, ih hcs, List.singleton_append]

theorem toList_escape (text : String) : (escape text).toList = text.toList.flatMap escapeChar := by
  have hcopied : (text.toList.takeWhile standsForItself).flatMap escapeChar =
      text.toList.takeWhile standsForItself :=
    flatMap_escapeChar_of_all (List.all_eq_true.1 List.all_takeWhile)
  have hsplit : text.toList.flatMap escapeChar = text.toList.takeWhile standsForItself ++
      (text.toList.dropWhile standsForItself).flatMap escapeChar := by
    rw [← hcopied, ← List.flatMap_append, List.takeWhile_append_dropWhile]
  rw [hsplit, escape]
  cases hrest : text.toList.dropWhile standsForItself with
  | nil =>
      have hall := List.takeWhile_append_dropWhile (p := standsForItself) (l := text.toList)
      rw [hrest, List.append_nil] at hall
      rw [List.flatMap_nil, List.append_nil, hall]
  | cons c rest => exact String.toList_ofList

def delimiters : List Char := ['<', '>', '"', '\'']

theorem isSome_entity? {c : Char} (h : c ∈ delimiters) : (entity? c).isSome = true := by
  simp only [delimiters, List.mem_cons, List.not_mem_nil, or_false] at h
  obtain rfl | rfl | rfl | rfl := h <;> rfl

def entities : List String := ["&amp;", "&lt;", "&gt;", "&quot;", "&#039;"]

theorem mem_entities {c : Char} {entity : String} (h : entity? c = some entity) :
    entity ∈ entities := by
  rw [entity?] at h
  repeat' split at h
  all_goals simp_all [entities]

theorem not_mem_delimiters_of_mem_escapeChar {c d : Char} (h : d ∈ escapeChar c) :
    d ∉ delimiters := by
  cases hentity : entity? c with
  | none =>
      rw [escapeChar_of_none hentity] at h
      obtain rfl := List.mem_singleton.1 h
      intro hd
      have hsome := isSome_entity? hd
      rw [hentity] at hsome
      cases hsome
  | some entity =>
      have hall : entities.all (fun e => e.toList.all fun d => !delimiters.contains d) = true := by
        decide
      rw [escapeChar_of_some hentity] at h
      simpa using List.all_eq_true.1 (List.all_eq_true.1 hall entity (mem_entities hentity)) d h

theorem not_mem_escape {c : Char} (h : c ∈ delimiters) (text : String) :
    c ∉ (escape text).toList := by
  rw [toList_escape]
  intro hc
  obtain ⟨d, -, hd⟩ := List.mem_flatMap.1 hc
  exact not_mem_delimiters_of_mem_escapeChar hd h

end EnglishPages.Html
