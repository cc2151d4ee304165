/-!
White space, and trimming by it. The class is the White_Space property of Unicode: the five ASCII
controls from tab to carriage return, the space, the next-line control, the no-break spaces, the
typographic spaces and the two separators. The zero-width space and the byte order mark are not in
it.

Everything here works on character lists, so that what is removed and what stays are plain list
facts.
-/

namespace EnglishPages.Text

def isBlank (c : Char) : Bool :=
  let n := c.toNat
  (9 ≤ n && n ≤ 13) || n == 0x20 || n == 0x85 || n == 0xA0 || n == 0x1680 ||
    (0x2000 ≤ n && n ≤ 0x200A) || n == 0x2028 || n == 0x2029 || n == 0x202F || n == 0x205F ||
    n == 0x3000

def trimStart (cs : List Char) : List Char :=
  cs.dropWhile isBlank

def trimEnd (cs : List Char) : List Char :=
  (cs.reverse.dropWhile isBlank).reverse

def trim (cs : List Char) : List Char :=
  trimEnd (trimStart cs)

def isBlankText (cs : List Char) : Bool :=
  cs.all isBlank

@[simp]
theorem trimStart_nil : trimStart [] = [] := rfl

@[simp]
theorem trimEnd_nil : trimEnd [] = [] := rfl

@[simp]
theorem trim_nil : trim [] = [] := rfl

theorem dropWhile_isBlank_eq_nil {cs : List Char} (h : ∀ c ∈ cs, isBlank c = true) :
    cs.dropWhile isBlank = [] := by
  induction cs with
  | nil => rfl
  | cons c cs ih => simp_all

theorem isBlankText_append_newline {cs : List Char} (h : isBlankText cs = true) :
    isBlankText (cs ++ ['\n']) = true := by
  rw [isBlankText, List.all_append, ← isBlankText, h]
  rfl

theorem trimStart_append_of_blank (cs ds : List Char) (h : isBlankText cs = true) :
    trimStart (cs ++ ds) = trimStart ds := by
  simp [trimStart, List.dropWhile_append, dropWhile_isBlank_eq_nil (List.all_eq_true.1 h)]

theorem trimStart_append_of_ne_nil {cs : List Char} (h : trimStart cs ≠ []) (y : List Char) :
    trimStart (cs ++ y) = trimStart cs ++ y := by
  have hempty : (cs.dropWhile isBlank).isEmpty = false := by simpa [trimStart] using h
  rw [trimStart, List.dropWhile_append, hempty]
  rfl

theorem trimStart_append_of_eq_nil {cs : List Char} (h : trimStart cs = []) (y : List Char) :
    trimStart (cs ++ y) = trimStart y := by
  have hempty : (cs.dropWhile isBlank).isEmpty = true := by simpa [trimStart] using h
  rw [trimStart, List.dropWhile_append, hempty]
  rfl

theorem trimEnd_append_of_blank (cs ds : List Char) (h : isBlankText ds = true) :
    trimEnd (cs ++ ds) = trimEnd cs := by
  have hd : ds.reverse.dropWhile isBlank = [] :=
    dropWhile_isBlank_eq_nil fun c hc => List.all_eq_true.1 h c (List.mem_reverse.1 hc)
  simp [trimEnd, List.dropWhile_append, hd]

end EnglishPages.Text
