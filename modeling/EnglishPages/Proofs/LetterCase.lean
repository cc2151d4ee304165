import EnglishPages.Text.Scan

/-!
Letters and case. Lowering and raising change the ASCII letters, by 32 places. Folding the case of a
character neither makes white space of it nor takes a word character out of its class, so a text that
starts with a keyword has the white space and the words of that keyword in front.
-/

namespace EnglishPages.Text

section Ascii

variable {c : Char}

theorem isUpper_iff : c.isUpper = true ↔ 65 ≤ c.toNat ∧ c.toNat ≤ 90 :=
  decide_eq_true_iff.trans (and_congr UInt32.le_iff_toNat_le UInt32.le_iff_toNat_le)

theorem isLower_iff : c.isLower = true ↔ 97 ≤ c.toNat ∧ c.toNat ≤ 122 :=
  Bool.and_eq_true_iff.trans (and_congr (decide_eq_true_iff.trans UInt32.le_iff_toNat_le)
    (decide_eq_true_iff.trans UInt32.le_iff_toNat_le))

theorem isDigit_iff : c.isDigit = true ↔ 48 ≤ c.toNat ∧ c.toNat ≤ 57 :=
  Bool.and_eq_true_iff.trans (and_congr (decide_eq_true_iff.trans UInt32.le_iff_toNat_le)
    (decide_eq_true_iff.trans UInt32.le_iff_toNat_le))

theorem toLower_eq_self (h : c.isUpper = false) : c.toLower = c :=
  dif_neg (of_decide_eq_false h)

theorem toNat_toLower (h : c.isUpper = true) : c.toLower.toNat = c.toNat + 32 := by
  have hval : c.toLower.val = c.val + 32 := congrArg Char.val (dif_pos (of_decide_eq_true h))
  have hrange := isUpper_iff.1 h
  have hsum : (c.val + 32).toNat = (c.toNat + 32) % 2 ^ 32 := UInt32.toNat_add c.val 32
  change c.toLower.val.toNat = c.toNat + 32
  rw [hval, hsum]
  omega

theorem isLower_toLower (h : c.isAlpha = true) : c.toLower.isLower = true := by
  by_cases hupper : c.isUpper = true
  · have hrange := isUpper_iff.1 hupper
    rw [isLower_iff, toNat_toLower hupper]
    omega
  · rw [toLower_eq_self (by simpa using hupper)]
    exact (Bool.or_eq_true_iff.1 h).resolve_left hupper

theorem toLower_toUpper {c : Char} (h : c.isUpper = false) : c.toUpper.toLower = c := by
  by_cases hlower : 'a'.val ≤ c.val ∧ c.val ≤ 'z'.val
  · have hrange : 97 ≤ c.toNat ∧ c.toNat ≤ 122 :=
      ⟨UInt32.le_iff_toNat_le.1 hlower.1, UInt32.le_iff_toNat_le.1 hlower.2⟩
    have hval := congrArg Char.val (dif_pos hlower : c.toUpper = _)
    have hstep : ('A'.val - 'a'.val).toNat = 4294967264 := by decide
    have hnat : c.toUpper.toNat = (c.toNat + 4294967264) % 2 ^ 32 := by
      rw [← hstep]
      exact (congrArg UInt32.toNat hval).trans (UInt32.toNat_add _ _)
    have hupper : c.toUpper.isUpper = true := by
      rw [isUpper_iff, hnat]
      omega
    apply Char.toNat_inj.1
    rw [toNat_toLower hupper, hnat]
    omega
  · have hsame : c.toUpper = c := dif_neg hlower
    rw [hsame, toLower_eq_self h]

theorem isUpper_toLower (c : Char) : c.toLower.isUpper = false := by
  refine Bool.eq_false_iff.2 fun hupper => ?_
  by_cases hc : c.isUpper = true
  · have hrange := isUpper_iff.1 hc
    have hlower := isUpper_iff.1 hupper
    rw [toNat_toLower hc] at hlower
    omega
  · rw [toLower_eq_self (by simpa using hc)] at hupper
    exact hc hupper

end Ascii

/-- A class of characters takes no notice of case if it takes none in ASCII and has the long s and
the Kelvin sign just if it has the letters that they fold to. -/
theorem apply_foldCase {p : Char → Bool}
    (hascii : ∀ n < 128, p (foldCase (Char.ofNat n)) = p (Char.ofNat n))
    (hs : p 's' = p (Char.ofNat 0x17F)) (hk : p 'k' = p (Char.ofNat 0x212A)) (c : Char) :
    p (foldCase c) = p c := by
  by_cases hc : c.toNat < 128
  · have h := hascii c.toNat hc
    rwa [Char.ofNat_toNat] at h
  · unfold foldCase
    split
    · next hlong => rw [hs, ← beq_iff_eq.1 hlong, Char.ofNat_toNat]
    split
    · next hkelvin => rw [hk, ← beq_iff_eq.1 hkelvin, Char.ofNat_toNat]
    have hupper : c.isUpper = false := by
      refine Bool.eq_false_iff.2 fun hupper => ?_
      have hrange := isUpper_iff.1 hupper
      omega
    rw [toLower_eq_self hupper]

theorem isWord_foldCase (c : Char) : isWord (foldCase c) = isWord c :=
  apply_foldCase (by decide +kernel) (by decide +kernel) (by decide +kernel) c

theorem isBlank_foldCase (c : Char) : isBlank (foldCase c) = isBlank c :=
  apply_foldCase (by decide +kernel) (by decide +kernel) (by decide +kernel) c

theorem map_foldCase_of_afterKeyword? {ks cs rest : List Char}
    (h : afterKeyword? ks cs = some rest) : cs.map foldCase = ks ++ rest.map foldCase := by
  induction ks generalizing cs with
  | nil =>
      rw [afterKeyword?_nil] at h
      rw [Option.some.inj h, List.nil_append]
  | cons k ks ih =>
      cases cs with
      | nil => cases h
      | cons c cs =>
          simp only [afterKeyword?] at h
          split at h
          · next hc => rw [List.map_cons, hc, ih h, List.cons_append]
          · cases h

end EnglishPages.Text
