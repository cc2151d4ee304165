import EnglishPages.Text.Blank
import EnglishPages.Text.Scan

/-!
The verbatim marker. A script or style file that starts with it, white space aside, is not in its
dialect: everything after the marker's line is the output, unchanged.
-/

namespace EnglishPages.Verbatim

def marker : List Char := "@raw".toList

/-- What follows the marker's line, if the source starts with the marker. The marker may run on
into other text; its line ends at the next newline. -/
def body? (source : List Char) : Option (List Char) :=
  let rest := Text.trimStart source
  if marker.isPrefixOf rest then
    match Text.splitFirst? '\n' rest with
    | some (_, body) => some body
    | none => some []
  else none

theorem body?_append_of_blank (w source : List Char) (h : Text.isBlankText w = true) :
    body? (w ++ source) = body? source := by
  simp [body?, Text.trimStart_append_of_blank w source h]

theorem body?_eq_none_iff {source : List Char} :
    body? source = none ↔ ¬ marker <+: Text.trimStart source := by
  rw [← List.isPrefixOf_iff_prefix]
  simp only [body?]
  split
  · next h =>
      simp only [h, not_true_eq_false, iff_false]
      split <;> simp
  · next h => simp [h]

theorem body?_append {a b : List Char} (ha : body? a = none) (hb : body? b = none) :
    body? (a ++ '\n' :: b) = none := by
  rw [body?_eq_none_iff] at *
  by_cases hblank : Text.trimStart a = []
  · rw [Text.trimStart_append_of_eq_nil hblank]
    exact hb
  · rw [Text.trimStart_append_of_ne_nil hblank]
    intro hprefix
    by_cases hlength : marker.length ≤ (Text.trimStart a).length
    · exact ha (List.prefix_of_prefix_length_le hprefix (List.prefix_append _ _) hlength)
    · have hlonger : Text.trimStart a ++ ['\n'] <+: Text.trimStart a ++ '\n' :: b := ⟨b, by simp⟩
      have hnewline : Text.trimStart a ++ ['\n'] <+: marker := by
        refine List.prefix_of_prefix_length_le hlonger hprefix ?_
        rw [List.length_append, List.length_singleton]
        omega
      exact absurd (hnewline.mem (List.mem_append_right _ (List.mem_singleton_self '\n')))
        (by decide)

end EnglishPages.Verbatim
