import EnglishPages.Json.Printer
import EnglishPages.Proofs.JsonGrammar
import EnglishPages.Text.Lines
import Mathlib.Data.List.Forall2

/-!
What is written is a JSON text of the value, on one line or laid out over several. A string is
written by the rules of the grammar, each character plain or by the shortest escape that there is;
a natural number has no zero in front; items and members stand between commas, and the layout only
puts white space around them.

Sorting the members changes nothing of what a value says, as long as no key is repeated.
-/

namespace EnglishPages.Json

theorem codeUnit_control {n : Nat} (h : n < 32) :
    CodeUnit n ['0', '0', hexDigit (n / 16), hexDigit (n % 16)] := by
  have hdigit : ∀ v < 16, "0123456789abcdef".toList[v]? = some (hexDigit v).toLower := by decide
  have hunit := CodeUnit.digits (hdigit 0 (by decide)) (hdigit 0 (by decide))
    (hdigit (n / 16) (by omega)) (hdigit (n % 16) (by omega))
  have hvalue : 0 * 0x1000 + 0 * 0x100 + n / 16 * 0x10 + n % 16 = n := by omega
  rw [hvalue] at hunit
  exact hunit

theorem StringText.escapeChar {s cs : List Char} (h : StringText s cs) (c : Char) :
    StringText (c :: s) (escapeChar c ++ cs) := by
  have hshort {e : Char} {n : Nat} (hc : c.toNat = n) (hmem : (e, n) ∈ shortEscapes) :
      StringText (c :: s) ('\\' :: e :: cs) := .short (hc ▸ hmem) h
  unfold Json.escapeChar
  split
  · next hc => exact hshort (by rw [hc]) (by decide)
  split
  · next hc => exact hshort (by rw [hc]) (by decide)
  split
  · next hc => exact hshort hc (by decide)
  split
  · next hc => exact hshort hc (by decide)
  split
  · next hc => exact hshort hc (by decide)
  split
  · next hc => exact hshort hc (by decide)
  split
  · next hc => exact hshort hc (by decide)
  split
  · next hc => exact .code (codeUnit_control hc) h
  · next hquote hslash _ _ _ _ _ hcontrol =>
      exact .plain (Nat.le_of_not_lt hcontrol) hquote hslash h

theorem stringText_escaped (s : List Char) : StringText s (s.flatMap escapeChar) := by
  induction s with
  | nil => exact .nil
  | cons c s ih => exact ih.escapeChar c

theorem toList_quote (s : String) :
    (quote s).toList = '"' :: (s.toList.flatMap escapeChar ++ ['"']) :=
  String.toList_ofList

theorem isWhole_toDigits (n : Nat) : IsWhole (Nat.toDigits 10 n) where
  ne_nil := Nat.toDigits_ne_nil
  digits _ hc := Nat.isDigit_of_mem_toDigits (by decide) (by decide) hc
  leading := by
    induction n using Nat.strongRecOn with
    | ind n ih =>
        rw [Nat.toDigits_eq_if (by decide)]
        split
        · intro hhead
          rw [Option.some.inj hhead]
        · next hn =>
            intro hhead
            -- A leading zero would be the one digit of `n / 10`.
            obtain ⟨c, ds, hds⟩ := List.exists_cons_of_ne_nil
              (Nat.toDigits_ne_nil (n := n / 10) (b := 10))
            have hfirst : (Nat.toDigits 10 (n / 10)).head? = some '0' := by
              rw [hds] at hhead ⊢
              exact hhead
            have hzero := congrArg (Nat.ofDigitChars 10 · 0) (ih (n / 10) (by omega) hfirst)
            simp only [Nat.ofDigitChars_ten_toDigits] at hzero
            have hnone : Nat.ofDigitChars 10 ['0'] 0 = 0 := by decide
            omega

theorem scalarText_natural (n : Nat) : ScalarText (natural n) (scalarText (natural n)).toList := by
  have hdigits : ScalarText (natural (Nat.ofDigitChars 10 (Nat.toDigits 10 n) 0))
      (Nat.toDigits 10 n) := .natural (isWhole_toDigits n)
  rw [Nat.ofDigitChars_ten_toDigits, ← Nat.toList_repr] at hdigits
  exact hdigits

theorem scalarText_bool (b : Bool) : ScalarText (bool b) (scalarText (bool b)).toList := by
  cases b with
  | false => exact .falseWord
  | true => exact .trueWord

theorem scalarText_string (s : String) : ScalarText (string s) (scalarText (string s)).toList := by
  have hquoted := ScalarText.string (stringText_escaped s.toList)
  rw [String.ofList_toList, ← toList_quote] at hquoted
  exact hquoted

/-- A value whose numbers are all given as the grammar has them. -/
inductive Writable : Json → Prop
  | scalar {v : Json} (h : ScalarText v (scalarText v).toList) : Writable v
  | array {items : List Json} (h : ∀ v ∈ items, Writable v) : Writable (array items)
  | object {members : List (String × Json)} (h : ∀ m ∈ members, Writable m.2) :
      Writable (object members)

theorem Writable.string (s : String) : Writable (string s) := .scalar (scalarText_string s)

theorem Writable.natural (n : Nat) : Writable (natural n) := .scalar (scalarText_natural n)

theorem Writable.bool (b : Bool) : Writable (bool b) := .scalar (scalarText_bool b)

theorem Writable.array_map {α : Type} {f : α → Json} (h : ∀ a, (f a).Writable) (as : List α) :
    Writable (.array (as.map f)) := by
  refine .array fun v hv => ?_
  obtain ⟨a, -, rfl⟩ := List.mem_map.1 hv
  exact h a

section Scalar

variable {v : Json} {cs : List Char}

theorem ScalarText.compact_eq (h : ScalarText v cs) : compact v = scalarText v := by
  cases h <;> rfl

theorem ScalarText.prettyAt_eq (h : ScalarText v cs) (depth : Nat) :
    prettyAt depth v = scalarText v := by
  cases h <;> rfl

theorem ScalarText.sorted_eq (h : ScalarText v cs) : sorted v = v := by
  cases h <;> rfl

end Scalar

theorem isSpaces_nil : IsSpaces [] := List.forall_mem_nil _

theorem isSpaces_space : IsSpaces [' '] := List.forall_mem_singleton.2 (by decide)

theorem derives_joined {α : Type} {one : α → Phrase} {many : List α → Phrase}
    (hlast : ∀ {a cs}, Derives (one a) cs → Derives (many [a]) cs)
    (hnext : ∀ {a as cs ds}, Derives (one a) cs → Derives (many as) ds →
      Derives (many (a :: as)) (cs ++ ',' :: ds))
    {w : List Char} {as : List α} {texts : List (List Char)} (hne : as ≠ [])
    (h : List.Forall₂ (fun a cs => Derives (one a) cs ∧ Derives (one a) (cs ++ w)) as texts) :
    Derives (many as) (Text.joined ',' texts ++ w) := by
  induction h with
  | nil => exact absurd rfl hne
  | @cons a cs as texts ha has ih =>
      cases has with
      | nil => exact hlast ha.2
      | cons hb hbs =>
          rw [Text.joined_cons_cons, List.append_assoc, List.cons_append]
          exact hnext ha.1 (ih (List.cons_ne_nil _ _))

section Layout

variable {w w' : List Char} (hw : IsSpaces w) (hw' : IsSpaces w')
include hw hw'

theorem derives_array {items : List Json} (text : Json → List Char) (hne : items ≠ [])
    (h : ∀ v ∈ items, Derives (.value v) (text v)) :
    Derives (.value (array items))
      ('[' :: (Text.joined ',' (items.map fun v => w ++ text v) ++ w' ++ [']'])) := by
  refine .array (derives_joined .lastItem .nextItem hne ?_)
  rw [List.forall₂_map_right_iff, List.forall₂_same]
  intro v hv
  have hbare := Derives.item hw (h v hv) isSpaces_nil
  have hspaced := Derives.item hw (h v hv) hw'
  rw [List.append_nil] at hbare
  rw [← List.append_assoc] at hspaced
  exact ⟨hbare, hspaced⟩

theorem derives_object {members : List (String × Json)} (text : Json → List Char) {gap : List Char}
    (hgap : IsSpaces gap) (hne : members ≠ [])
    (h : ∀ m ∈ members, Derives (.value m.2) (text m.2)) :
    Derives (.value (object members))
      ('{' :: (Text.joined ','
        (members.map fun m => w ++ ((quote m.1).toList ++ ':' :: (gap ++ text m.2))) ++ w' ++
          ['}'])) := by
  refine .object (derives_joined .lastMember .nextMember hne ?_)
  rw [List.forall₂_map_right_iff, List.forall₂_same]
  intro m hm
  have hmember : ∀ {behind : List Char}, IsSpaces behind →
      Derives (.member m) (w ++ ((quote m.1).toList ++ ':' :: (gap ++ text m.2)) ++ behind) := by
    intro behind hbehind
    have hitem := Derives.item hgap (h m hm) hbehind
    have hkey := Derives.member hw (stringText_escaped m.1.toList) isSpaces_nil hitem
    rw [String.ofList_toList] at hkey
    simpa [toList_quote] using hkey
  have hbare := hmember isSpaces_nil
  rw [List.append_nil] at hbare
  exact ⟨hbare, hmember hw'⟩

end Layout

theorem compactItems_eq (items : List Json) : compactItems items = items.map compact := by
  induction items with
  | nil => rfl
  | cons v items ih => rw [compactItems, ih, List.map_cons]

theorem compactMembers_eq (members : List (String × Json)) :
    compactMembers members = members.map fun m => quote m.1 ++ ":" ++ compact m.2 := by
  induction members with
  | nil => rfl
  | cons m members ih => rw [compactMembers, ih, List.map_cons]

theorem prettyItems_eq (depth : Nat) (items : List Json) :
    prettyItems depth items = items.map (prettyAt depth) := by
  induction items with
  | nil => rfl
  | cons v items ih => rw [prettyItems, ih, List.map_cons]

theorem prettyMembers_eq (depth : Nat) (members : List (String × Json)) :
    prettyMembers depth members =
      members.map fun m => quote m.1 ++ ": " ++ prettyAt depth m.2 := by
  induction members with
  | nil => rfl
  | cons m members ih => rw [prettyMembers, ih, List.map_cons]

theorem Writable.derives_compact {v : Json} (h : Writable v) :
    Derives (.value v) v.compact.toList := by
  induction h with
  | scalar h =>
      rw [h.compact_eq]
      exact .scalar h
  | @array items _ ih =>
      cases items with
      | nil => exact .emptyArray isSpaces_nil
      | cons v items =>
          have harray := derives_array isSpaces_nil isSpaces_nil (fun v => v.compact.toList)
            (List.cons_ne_nil v items) ih
          rw [compact, compactItems_eq, String.toList_append, String.toList_append,
            Text.toList_intercalate (c := ',') rfl, List.map_map]
          simpa [Function.comp_def] using harray
  | @object members _ ih =>
      cases members with
      | nil => exact .emptyObject isSpaces_nil
      | cons m members =>
          have hobject := derives_object isSpaces_nil isSpaces_nil (fun v => v.compact.toList)
            isSpaces_nil (List.cons_ne_nil m members) ih
          rw [compact, compactMembers_eq, String.toList_append, String.toList_append,
            Text.toList_intercalate (c := ',') rfl, List.map_map]
          simpa [Function.comp_def] using hobject

theorem Writable.isText_compact {v : Json} (h : Writable v) : IsText v v.compact := by
  have hitem := Derives.item isSpaces_nil h.derives_compact isSpaces_nil
  rwa [List.append_nil, List.nil_append] at hitem

def lineBreak (depth : Nat) : List Char :=
  '\n' :: List.replicate (2 * depth) ' '

theorem isSpaces_lineBreak (depth : Nat) : IsSpaces (lineBreak depth) := by
  refine List.forall_mem_cons.2 ⟨by decide, fun c hc => ?_⟩
  rw [List.eq_of_mem_replicate hc]
  decide

theorem append_intercalate (w : List Char) (texts : List (List Char)) (hne : texts ≠ []) :
    w ++ (',' :: w).intercalate texts = Text.joined ',' (texts.map (w ++ ·)) := by
  induction texts with
  | nil => exact absurd rfl hne
  | cons t texts ih =>
      cases texts with
      | nil => simp [Text.joined]
      | cons u texts =>
          have hrest := ih (List.cons_ne_nil u texts)
          rw [List.map_cons] at hrest
          rw [List.map_cons, List.map_cons, Text.joined_cons_cons, ← hrest]
          simp

theorem bracketed_nil (depth : Nat) (opening closing : String) :
    bracketed depth opening closing [] = opening ++ closing := by
  simp [bracketed]

theorem toList_bracketed {depth : Nat} {opening closing : String} {entries : List String}
    (hne : entries ≠ []) :
    (bracketed depth opening closing entries).toList =
      opening.toList ++ (Text.joined ','
        (entries.map fun e => lineBreak (depth + 1) ++ e.toList) ++ lineBreak depth ++
          closing.toList) := by
  have hempty : entries.isEmpty = false := List.isEmpty_eq_false_iff.2 hne
  have hjoined := append_intercalate (lineBreak (depth + 1)) (entries.map String.toList)
    (by simpa using hne)
  rw [List.map_map] at hjoined
  have hbreak : ∀ n, ("\n" ++ String.ofList (List.replicate (2 * n) ' ')).toList = lineBreak n := by
    intro n
    simp [lineBreak]
  have hcomma : ("," ++ ("\n" ++ String.ofList (List.replicate (2 * (depth + 1)) ' '))).toList =
      ',' :: lineBreak (depth + 1) := by
    rw [String.toList_append, hbreak]
    rfl
  simp only [bracketed, hempty, Bool.false_eq_true, if_false, String.toList_append, hbreak,
    String.toList_intercalate, hcomma, List.append_assoc]
  rw [← List.append_assoc (lineBreak _), hjoined]
  rfl

theorem Writable.derives_prettyAt {v : Json} (h : Writable v) (depth : Nat) :
    Derives (.value v) (v.prettyAt depth).toList := by
  induction h generalizing depth with
  | scalar h =>
      rw [h.prettyAt_eq]
      exact .scalar h
  | @array items _ ih =>
      cases items with
      | nil =>
          rw [prettyAt, prettyItems, bracketed_nil]
          exact .emptyArray isSpaces_nil
      | cons v items =>
          have harray := derives_array (isSpaces_lineBreak (depth + 1)) (isSpaces_lineBreak depth)
            (fun v => (v.prettyAt (depth + 1)).toList) (List.cons_ne_nil v items)
            (fun v hv => ih v hv (depth + 1))
          rw [prettyAt, prettyItems_eq, toList_bracketed (by simp), List.map_map]
          exact harray
  | @object members _ ih =>
      cases members with
      | nil =>
          rw [prettyAt, prettyMembers, bracketed_nil]
          exact .emptyObject isSpaces_nil
      | cons m members =>
          have hobject := derives_object (isSpaces_lineBreak (depth + 1)) (isSpaces_lineBreak depth)
            (fun v => (v.prettyAt (depth + 1)).toList) isSpaces_space (List.cons_ne_nil m members)
            (fun m hm => ih m hm (depth + 1))
          rw [prettyAt, prettyMembers_eq, toList_bracketed (by simp), List.map_map]
          simpa [Function.comp_def] using hobject

theorem Writable.isText_pretty {v : Json} (h : Writable v) {behind : String}
    (hbehind : IsSpaces behind.toList) : IsText v (v.pretty ++ behind) := by
  have hitem := Derives.item isSpaces_nil (h.derives_prettyAt 0) hbehind
  rwa [List.nil_append, ← String.toList_append] at hitem

theorem sortedItems_eq (items : List Json) : sortedItems items = items.map sorted := by
  induction items with
  | nil => rfl
  | cons v items ih => rw [sortedItems, ih, List.map_cons]

theorem sortedMembers_eq (members : List (String × Json)) :
    sortedMembers members = members.map fun m => (m.1, m.2.sorted) := by
  induction members with
  | nil => rfl
  | cons m members ih => rw [sortedMembers, ih, List.map_cons]

theorem sorted_array (items : List Json) : (array items).sorted = array (items.map sorted) := by
  rw [sorted, sortedItems_eq]

theorem exists_sorted_object (members : List (String × Json)) :
    ∃ members', (object members).sorted = object members' ∧
      members'.Perm (members.map fun m => (m.1, m.2.sorted)) :=
  ⟨_, by rw [sorted, sortedMembers_eq], List.mergeSort_perm _ _⟩

theorem Writable.sorted {v : Json} (h : Writable v) : Writable v.sorted := by
  induction h with
  | scalar h =>
      rw [h.sorted_eq]
      exact .scalar h
  | array _ ih =>
      rw [sorted_array]
      refine .array fun v hv => ?_
      obtain ⟨u, hu, rfl⟩ := List.mem_map.1 hv
      exact ih u hu
  | @object members _ ih =>
      obtain ⟨members', hsorted, hperm⟩ := exists_sorted_object members
      rw [hsorted]
      refine .object fun m hm => ?_
      obtain ⟨m', hm', rfl⟩ := List.mem_map.1 (hperm.mem_iff.1 hm)
      exact ih m' hm'

theorem lookup_eq_some_iff_mem {members : List (String × Json)}
    (h : (members.map Prod.fst).Nodup) {key : String} {v : Json} :
    members.lookup key = some v ↔ (key, v) ∈ members := by
  induction members with
  | nil => simp
  | cons m members ih =>
      obtain ⟨k, u⟩ := m
      obtain ⟨hk, hmembers⟩ := List.nodup_cons.1 h
      by_cases hkey : key = k
      · subst hkey
        have hnone : (key, v) ∉ members := fun hmem => hk (List.mem_map.2 ⟨(key, v), hmem, rfl⟩)
        simp [hnone, eq_comm]
      · have hbeq : (key == k) = false := beq_false_of_ne hkey
        rw [List.lookup_cons, hbeq]
        simp [hkey, ih hmembers]

theorem member?_sorted (members : List (String × Json)) (h : (members.map Prod.fst).Nodup)
    (key : String) :
    (object members).sorted.member? key = ((object members).member? key).map sorted := by
  obtain ⟨members', hsorted, hperm⟩ := exists_sorted_object members
  have h' : (members'.map Prod.fst).Nodup := by
    rw [(hperm.map Prod.fst).nodup_iff, List.map_map]
    exact h
  rw [hsorted]
  apply Option.ext
  intro v
  change members'.lookup key = some v ↔ (members.lookup key).map sorted = some v
  rw [lookup_eq_some_iff_mem h', hperm.mem_iff, List.mem_map, Option.map_eq_some_iff]
  constructor
  · rintro ⟨m, hm, hmv⟩
    obtain ⟨rfl, rfl⟩ := Prod.mk.inj hmv
    exact ⟨m.2, (lookup_eq_some_iff_mem h).2 hm, rfl⟩
  · rintro ⟨u, hu, rfl⟩
    exact ⟨(key, u), (lookup_eq_some_iff_mem h).1 hu, rfl⟩

end EnglishPages.Json
