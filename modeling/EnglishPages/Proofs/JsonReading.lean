import EnglishPages.Json.Reader
import EnglishPages.Proofs.JsonGrammar
import EnglishPages.Proofs.LetterCase
import EnglishPages.Proofs.Scanning

/-!
Every JSON text is read as the value that it stands for.

The reader cuts a text into tokens and drives a machine with them. Accordingly a derivation is
followed twice: `Lexes` says which tokens a part of a text is cut into, whatever follows it, and
`Drives` which way the machine goes over them, whatever is open around the part. Only the end of a
number depends on what follows it, so all that a part must know of the rest is that it does not go on
with a number.
-/

namespace EnglishPages.Json

variable {c : Char} {cs ds rest w : List Char}

theorem hexValue?_of_isHexDigit {value : Nat} (h : IsHexDigit value c) :
    hexValue? c = some value := by
  have hvalue : value < 16 := by
    refine Nat.lt_of_not_le fun hlarge => ?_
    rw [IsHexDigit, List.getElem?_eq_none hlarge] at h
    cases h
  have hascii : ∀ n < 128, ∀ v < 16,
      "0123456789abcdef".toList[v]? = some (Char.ofNat n).toLower →
        hexValue? (Char.ofNat n) = some v := by decide +kernel
  by_cases hc : c.toNat < 128
  · have hdigit := hascii c.toNat hc value hvalue
    rw [Char.ofNat_toNat] at hdigit
    exact hdigit h
  · have hlower : c.toLower = c := by
      refine Text.toLower_eq_self (Bool.eq_false_iff.2 fun hupper => ?_)
      have hrange := Text.isUpper_iff.1 hupper
      omega
    have htable : ("0123456789abcdef".toList.all fun d => d.toNat < 128) = true := by decide
    rw [IsHexDigit, hlower] at h
    exact absurd (List.all_eq_true.1 htable c (List.mem_of_getElem? h)) (by simpa using hc)

theorem codeUnit?_of_codeUnit {n : Nat} (h : CodeUnit n ds) (rest : List Char) :
    codeUnit? (ds ++ rest) = some (n, rest) := by
  obtain ⟨ha, hb, hc, hd⟩ := h
  simp only [List.cons_append, List.nil_append, codeUnit?, hexValue?_of_isHexDigit ha,
    hexValue?_of_isHexDigit hb, hexValue?_of_isHexDigit hc, hexValue?_of_isHexDigit hd,
    Option.bind_eq_bind, Option.bind_some, Option.pure_def, Option.some.injEq, Prod.mk.injEq,
    and_true]
  omega

theorem escape?_short {e : Char} (h : (e, c.toNat) ∈ shortEscapes) (rest : List Char) :
    escape? (e :: rest) = some (c, rest) := by
  have htable : (shortEscapes.all fun p => p.1 != 'u' &&
      shortEscape? p.1 == some (Char.ofNat p.2)) = true := by decide
  have hentry := List.all_eq_true.1 htable _ h
  simp only [Bool.and_eq_true, bne_iff_ne, beq_iff_eq, Char.ofNat_toNat] at hentry
  obtain ⟨hu, hshort⟩ := hentry
  rw [escape?, hshort]
  · rfl
  · exact hu

theorem escape?_code (h : CodeUnit c.toNat ds) (rest : List Char) :
    escape? ('u' :: (ds ++ rest)) = some (c, rest) := by
  have hvalid : c.toNat < 0xD800 ∨ 0xDFFF < c.toNat := by
    rcases c.valid with hlow | ⟨hhigh, -⟩
    · exact .inl hlow
    · exact .inr hhigh
  have hhigh : ¬ ((decide (0xD800 ≤ c.toNat) && decide (c.toNat < 0xDC00)) = true) := by
    simp only [Bool.and_eq_true, decide_eq_true_eq]
    omega
  have hlow : ¬ ((decide (0xDC00 ≤ c.toNat) && decide (c.toNat < 0xE000)) = true) := by
    simp only [Bool.and_eq_true, decide_eq_true_eq]
    omega
  rw [escape?, codeUnit?_of_codeUnit h]
  simp only [Option.bind_eq_bind, Option.bind_some, if_neg hhigh, if_neg hlow, Char.ofNat_toNat]
  rfl

theorem escape?_surrogates {high low : Nat} {es : List Char}
    (hhigh : 0xD800 ≤ high ∧ high ≤ 0xDBFF) (hlow : 0xDC00 ≤ low ∧ low ≤ 0xDFFF)
    (hc : c.toNat = 0x10000 + (high - 0xD800) * 0x400 + (low - 0xDC00))
    (hds : CodeUnit high ds) (hes : CodeUnit low es) (rest : List Char) :
    escape? ('u' :: (ds ++ '\\' :: 'u' :: (es ++ rest))) = some (c, rest) := by
  have hfirst : (decide (0xD800 ≤ high) && decide (high < 0xDC00)) = true := by
    simp only [Bool.and_eq_true, decide_eq_true_eq]
    omega
  have hsecond : (decide (0xDC00 ≤ low) && decide (low < 0xE000)) = true := by
    simp only [Bool.and_eq_true, decide_eq_true_eq]
    omega
  rw [escape?, codeUnit?_of_codeUnit hds]
  simp only [Option.bind_eq_bind, Option.bind_some, if_pos hfirst, codeUnit?_of_codeUnit hes,
    if_pos hsecond, ← hc, Char.ofNat_toNat]
  rfl

theorem stringBody?_skip (w cs : List Char) : stringBody? w.length (w ++ cs) = stringBody? 0 cs := by
  induction w with
  | nil => rfl
  | cons c w ih =>
      rw [List.length_cons, List.cons_append, stringBody?]
      exact ih

theorem stringBody?_escape {escape : List Char} (h : escape? (escape ++ rest) = some (c, rest)) :
    stringBody? 0 ('\\' :: (escape ++ rest)) =
      (stringBody? 0 rest).map fun r => (c :: r.1, r.2) := by
  have hskip : (escape ++ rest).length - rest.length = escape.length := by
    rw [List.length_append, Nat.add_sub_cancel]
  rw [stringBody?, if_neg (by decide), if_pos rfl, h]
  simp only [Option.bind_eq_bind, Option.bind_some, hskip, stringBody?_skip]
  cases stringBody? 0 rest with
  | none => rfl
  | some r => rfl

theorem StringText.stringBody? {s : List Char} (h : StringText s cs) (rest : List Char) :
    stringBody? 0 (cs ++ '"' :: rest) = some (s, rest) := by
  induction h with
  | nil => rw [List.nil_append, Json.stringBody?, if_pos rfl]
  | @plain c s cs hcontrol hquote hslash h ih =>
      rw [List.cons_append, Json.stringBody?, if_neg hquote, if_neg hslash,
        if_neg (Nat.not_lt.2 hcontrol), ih]
      rfl
  | @short c e s cs he h ih =>
      have hescape : escape? ([e] ++ (cs ++ '"' :: rest)) = some (c, cs ++ '"' :: rest) :=
        escape?_short he (cs ++ '"' :: rest)
      have hbody := stringBody?_escape hescape
      rw [ih] at hbody
      exact hbody
  | @code c ds s cs hds h ih =>
      have hescape := escape?_code hds (cs ++ '"' :: rest)
      rw [List.cons_append, List.cons_append, List.append_assoc, ← List.cons_append,
        stringBody?_escape hescape, ih]
      rfl
  | @surrogates c high low ds es s cs hhigh hlow hc hds hes h ih =>
      have hescape : escape? (('u' :: (ds ++ '\\' :: 'u' :: es)) ++ (cs ++ '"' :: rest)) =
          some (c, cs ++ '"' :: rest) := by
        simpa using escape?_surrogates hhigh hlow hc hds hes (cs ++ '"' :: rest)
      have htext : '\\' :: 'u' :: (ds ++ '\\' :: 'u' :: (es ++ cs)) ++ '"' :: rest =
          '\\' :: (('u' :: (ds ++ '\\' :: 'u' :: es)) ++ (cs ++ '"' :: rest)) := by simp
      rw [htext, stringBody?_escape hescape, ih]
      rfl

def EndsNumber (rest : List Char) : Prop :=
  ∀ c ∈ rest.head?, c.isDigit = false ∧ c ≠ '.' ∧ c ≠ 'e' ∧ c ≠ 'E'

theorem takeWhile_digits (hds : ∀ c ∈ ds, c.isDigit = true)
    (hrest : ∀ c ∈ rest.head?, c.isDigit = false) :
    (ds ++ rest).takeWhile Char.isDigit = ds ∧ (ds ++ rest).dropWhile Char.isDigit = rest := by
  have htake := Text.takeWhile_append_of_head? hds hrest
  refine ⟨htake, ?_⟩
  have hsplit := List.takeWhile_append_dropWhile (p := Char.isDigit) (l := ds ++ rest)
  rw [htake] at hsplit
  exact List.append_cancel_left hsplit

theorem IsWhole.whole? (h : IsWhole ds) (hrest : ∀ c ∈ rest.head?, c.isDigit = false) :
    whole? (ds ++ rest) = some (ds, rest) := by
  obtain ⟨⟨hne, hdigits⟩, hleading⟩ := h
  obtain ⟨c, ds, rfl⟩ := List.exists_cons_of_ne_nil hne
  obtain ⟨hc, hds⟩ := List.forall_mem_cons.1 hdigits
  rw [List.cons_append, Json.whole?]
  split
  · next hzero =>
      obtain rfl : ds = [] := (List.cons.inj (hleading (by rw [hzero]; rfl))).2
      rw [hzero]
      rfl
  · obtain ⟨htake, hdrop⟩ := takeWhile_digits hds hrest
    simp only [htake, hdrop]

theorem IsFraction.fraction (h : IsFraction ds)
    (hrest : ∀ c ∈ rest.head?, c.isDigit = false ∧ c ≠ '.') :
    fraction (ds ++ rest) = (ds, rest) := by
  cases h with
  | absent =>
      rw [List.nil_append, Json.fraction.eq_def]
      split
      · exact absurd rfl (hrest '.' rfl).2
      · rfl
  | @digits ds hds =>
      obtain ⟨hne, hdigits⟩ := hds
      obtain ⟨d, ds, rfl⟩ := List.exists_cons_of_ne_nil hne
      obtain ⟨hd, hds⟩ := List.forall_mem_cons.1 hdigits
      obtain ⟨htake, hdrop⟩ := takeWhile_digits hds fun c hc => (hrest c hc).1
      rw [List.cons_append, List.cons_append, Json.fraction, if_pos hd, htake, hdrop]

theorem IsExponent.exponent (h : IsExponent ds)
    (hrest : ∀ c ∈ rest.head?, c.isDigit = false ∧ c ≠ 'e' ∧ c ≠ 'E') :
    exponent (ds ++ rest) = (ds, rest) := by
  cases h with
  | absent =>
      cases rest with
      | nil => rfl
      | cons c rest =>
          obtain ⟨-, hlower, hupper⟩ := hrest c rfl
          simp [Json.exponent, hlower, hupper]
  | @digits mark sign ds hmark hsign hds =>
      obtain ⟨hne, hdigits⟩ := hds
      obtain ⟨htake, hdrop⟩ := takeWhile_digits hdigits fun c hc => (hrest c hc).1
      obtain ⟨d, ds, rfl⟩ := List.exists_cons_of_ne_nil hne
      have hmark : (decide (mark = 'e') || decide (mark = 'E')) = true := by simpa using hmark
      rcases hsign with rfl | rfl | rfl
      · have hd : d.isDigit = true := hdigits d List.mem_cons_self
        have hsign {sign : Char} (hdigit : sign.isDigit = false) (r : List Char) :
            d :: ds ++ rest ≠ sign :: r := by
          intro heq
          rw [(List.cons.inj heq).1, hdigit] at hd
          cases hd
        rw [List.nil_append, List.cons_append, Json.exponent, if_pos hmark, htake, hdrop]
        · rfl
        · exact hsign rfl
        · exact hsign rfl
      · simp only [List.cons_append] at htake hdrop
        simp only [List.nil_append, List.cons_append, Json.exponent, hmark, if_true, htake, hdrop]
      · simp only [List.cons_append] at htake hdrop
        simp only [List.nil_append, List.cons_append, Json.exponent, hmark, if_true, htake, hdrop]

theorem naturalOf_eq (ds : List Char) : naturalOf ds = Nat.ofDigitChars 10 ds 0 := by
  simp only [naturalOf, Nat.ofDigitChars_eq_foldl, Nat.mul_comm]
  rfl

theorem IsWhole.head (h : IsWhole ds) : ∃ c ∈ ds.head?, c.isDigit = true := by
  obtain ⟨c, ds, rfl⟩ := List.exists_cons_of_ne_nil h.ne_nil
  exact ⟨c, rfl, h.digits c List.mem_cons_self⟩

theorem number?_parts {sign frac expo : List Char} (hsign : sign = [] ∨ sign = ['-'])
    (hds : IsWhole ds) (hfrac : IsFraction frac) (hexpo : IsExponent expo)
    (hrest : EndsNumber rest) :
    number? (sign ++ (ds ++ (frac ++ (expo ++ rest)))) =
      if sign.isEmpty && frac.isEmpty && expo.isEmpty then
        some (natural (Nat.ofDigitChars 10 ds 0), rest)
      else some (decimal (String.ofList (sign ++ ds ++ frac ++ expo)), rest) := by
  have hexponent : exponent (expo ++ rest) = (expo, rest) :=
    hexpo.exponent fun c hc => ⟨(hrest c hc).1, (hrest c hc).2.2⟩
  have hbehindFraction : ∀ c ∈ (expo ++ rest).head?, c.isDigit = false ∧ c ≠ '.' := by
    cases hexpo with
    | absent => exact fun c hc => ⟨(hrest c hc).1, (hrest c hc).2.1⟩
    | digits hmark =>
        intro c hc
        cases hc
        rcases hmark with rfl | rfl
        · decide
        · decide
  have hfraction := hfrac.fraction hbehindFraction
  have hbehindWhole : ∀ c ∈ (frac ++ (expo ++ rest)).head?, c.isDigit = false := by
    cases hfrac with
    | absent => exact fun c hc => (hbehindFraction c hc).1
    | digits =>
        intro c hc
        cases hc
        rfl
  have hwhole := hds.whole? hbehindWhole
  rcases hsign with rfl | rfl
  · rw [List.nil_append, number?.eq_def]
    split
    next sign' rest' hsigned =>
    split at hsigned
    · next r hminus =>
        obtain ⟨c, hc, hdigit⟩ := hds.head
        obtain ⟨ds', rfl⟩ := List.head?_eq_some_iff.1 hc
        rw [(List.cons.inj hminus).1] at hdigit
        cases hdigit
    · obtain ⟨rfl, rfl⟩ := Prod.mk.inj hsigned
      simp only [hwhole, hfraction, hexponent, Option.bind_eq_bind, Option.bind_some, naturalOf_eq]
      rfl
  · rw [List.singleton_append, number?.eq_def]
    simp only [hwhole, hfraction, hexponent, Option.bind_eq_bind, Option.bind_some, naturalOf_eq]
    rfl

theorem afterText?_append (ds rest : List Char) : afterText? ds (ds ++ rest) = some rest := by
  induction ds with
  | nil => cases rest <;> rfl
  | cons d ds ih => rw [List.cons_append, afterText?, if_pos rfl, ih]

theorem token?_number (h : c.isDigit = true ∨ c = '-') (cs : List Char) :
    token? (c :: cs) = (number? (c :: cs)).map fun r => (.scalar r.1, r.2) := by
  have hne {d : Char} (hdigit : d.isDigit = false) (hminus : d ≠ '-') : c ≠ d := by
    rintro rfl
    rcases h with h | h
    · rw [hdigit] at h
      cases h
    · exact hminus h
  simp only [token?, hne (d := '[') (by decide) (by decide), hne (d := ']') (by decide) (by decide),
    hne (d := '{') (by decide) (by decide), hne (d := '}') (by decide) (by decide),
    hne (d := ',') (by decide) (by decide), hne (d := ':') (by decide) (by decide),
    hne (d := '"') (by decide) (by decide), hne (d := 't') (by decide) (by decide),
    hne (d := 'f') (by decide) (by decide), hne (d := 'n') (by decide) (by decide), if_false]

theorem ScalarText.token? {v : Json} (h : ScalarText v cs) (hrest : EndsNumber rest) :
    token? (cs ++ rest) = some (.scalar v, rest) := by
  cases h with
  | nullWord => exact congrArg (Option.map _) (afterText?_append "null".toList rest)
  | trueWord => exact congrArg (Option.map _) (afterText?_append "true".toList rest)
  | falseWord => exact congrArg (Option.map _) (afterText?_append "false".toList rest)
  | natural hds =>
      obtain ⟨c, hc, hdigit⟩ := hds.head
      obtain ⟨ds, rfl⟩ := List.head?_eq_some_iff.1 hc
      have hnumber := number?_parts (.inl rfl) hds .absent .absent hrest
      rw [List.cons_append, token?_number (.inl hdigit), ← List.cons_append]
      exact congrArg (Option.map _) hnumber
  | @decimal sign ds frac expo hsign hds hfrac hexpo hmarked =>
      have hnumber := number?_parts hsign hds hfrac hexpo hrest
      rw [if_neg (by simpa [List.isEmpty_iff, and_assoc] using hmarked)] at hnumber
      have htext : sign ++ (ds ++ (frac ++ expo)) ++ rest =
          sign ++ (ds ++ (frac ++ (expo ++ rest))) := by simp only [List.append_assoc]
      have hhead : ∃ c more, sign ++ (ds ++ (frac ++ (expo ++ rest))) = c :: more ∧
          (c.isDigit = true ∨ c = '-') := by
        rcases hsign with rfl | rfl
        · obtain ⟨c, hc, hdigit⟩ := hds.head
          obtain ⟨ds, rfl⟩ := List.head?_eq_some_iff.1 hc
          exact ⟨c, _, rfl, .inl hdigit⟩
        · exact ⟨'-', _, rfl, .inr rfl⟩
      obtain ⟨c, more, hcons, hc⟩ := hhead
      rw [htext]
      rw [hcons] at hnumber ⊢
      rw [token?_number hc, hnumber]
      simp only [Option.map_some, List.append_assoc]
  | @string s cs h =>
      have hbody := h.stringBody? rest
      rw [List.cons_append, List.append_assoc]
      exact congrArg (Option.map _) hbody

theorem ScalarText.head {v : Json} (h : ScalarText v cs) : ∃ c ∈ cs.head?, isSpace c = false := by
  have hdigit {ds : List Char} (hds : IsWhole ds) : ∃ c ∈ ds.head?, isSpace c = false := by
    obtain ⟨c, hc, hdigit⟩ := hds.head
    refine ⟨c, hc, Bool.eq_false_iff.2 fun hspace => ?_⟩
    simp only [isSpace, Bool.or_eq_true, beq_iff_eq, or_assoc] at hspace
    rcases hspace with rfl | rfl | rfl | rfl
    · cases hdigit
    · cases hdigit
    · cases hdigit
    · cases hdigit
  cases h with
  | nullWord => exact ⟨'n', rfl, rfl⟩
  | trueWord => exact ⟨'t', rfl, rfl⟩
  | falseWord => exact ⟨'f', rfl, rfl⟩
  | natural hds => exact hdigit hds
  | decimal hsign hds =>
      rcases hsign with rfl | rfl
      · obtain ⟨c, hc, hspace⟩ := hdigit hds
        exact ⟨c, by rw [List.nil_append, List.head?_append, hc]; rfl, hspace⟩
      · exact ⟨'-', rfl, rfl⟩
  | string => exact ⟨'"', rfl, rfl⟩

theorem tokensFrom?_skip (w cs : List Char) : tokensFrom? w.length (w ++ cs) = tokensFrom? 0 cs := by
  induction w with
  | nil => rfl
  | cons c w ih =>
      rw [List.length_cons, List.cons_append, tokensFrom?]
      exact ih

theorem tokensFrom?_token {t : Token} (h : token? (cs ++ rest) = some (t, rest))
    (hhead : ∃ c ∈ cs.head?, isSpace c = false) :
    tokensFrom? 0 (cs ++ rest) = (tokensFrom? 0 rest).map (t :: ·) := by
  obtain ⟨c, hc, hspace⟩ := hhead
  obtain ⟨cs, rfl⟩ := List.head?_eq_some_iff.1 hc
  have hskip : (cs ++ rest).length - rest.length = cs.length := by
    rw [List.length_append, Nat.add_sub_cancel]
  rw [List.cons_append] at h ⊢
  rw [tokensFrom?, if_neg (by simp [hspace]), h]
  simp only [Option.bind_eq_bind, Option.bind_some, hskip, tokensFrom?_skip]
  cases tokensFrom? 0 rest with
  | none => rfl
  | some ts => rfl

/-- The text is cut into the tokens, if it is not followed by more of a number. -/
def Lexes (cs : List Char) (ts : List Token) : Prop :=
  ∀ rest, EndsNumber rest → tokensFrom? 0 (cs ++ rest) = (tokensFrom? 0 rest).map (ts ++ ·)

variable {ts us : List Token}

theorem EndsNumber.append (hcs : EndsNumber cs) (hds : EndsNumber ds) : EndsNumber (cs ++ ds) := by
  cases cs with
  | nil => exact hds
  | cons c cs => exact hcs

theorem endsNumber_spaces (hw : IsSpaces w) : EndsNumber w := by
  have hall : ([' ', '\t', '\n', '\r'].all fun c =>
      !c.isDigit && c != '.' && c != 'e' && c != 'E') = true := by decide
  intro c hc
  simpa [and_assoc] using List.all_eq_true.1 hall c (hw c (List.mem_of_head? hc))

theorem Lexes.append (hcs : Lexes cs ts) (hds : Lexes ds us) (hends : EndsNumber ds) :
    Lexes (cs ++ ds) (ts ++ us) := by
  intro rest hrest
  rw [List.append_assoc, hcs _ (hends.append hrest), hds rest hrest, Option.map_map]
  exact congrArg (Option.map · _) (funext fun more => (List.append_assoc ts us more).symm)

theorem Lexes.spaces_append (hw : IsSpaces w) (h : Lexes cs ts) : Lexes (w ++ cs) ts := by
  have hspace : ([' ', '\t', '\n', '\r'].all isSpace) = true := by decide
  intro rest hrest
  rw [← h rest hrest]
  clear h
  induction w with
  | nil => rfl
  | cons c w ih =>
      obtain ⟨hc, hw⟩ := List.forall_mem_cons.1 hw
      rw [List.cons_append, List.cons_append, tokensFrom?,
        if_pos (List.all_eq_true.1 hspace c hc)]
      exact ih hw

theorem lexes_nil : Lexes [] [] := fun rest _ => by simp

theorem ScalarText.lexes {v : Json} (h : ScalarText v cs) : Lexes cs [.scalar v] :=
  fun _ hrest => tokensFrom?_token (h.token? hrest) h.head

theorem Lexes.mark {t : Token} (hmark : ∀ rest, token? (c :: rest) = some (t, rest))
    (hspace : isSpace c = false) (h : Lexes cs ts) : Lexes (c :: cs) (t :: ts) := by
  intro rest hrest
  have htoken : token? ([c] ++ (cs ++ rest)) = some (t, cs ++ rest) := hmark (cs ++ rest)
  have hfirst := tokensFrom?_token htoken ⟨c, rfl, hspace⟩
  rw [h rest hrest, Option.map_map] at hfirst
  exact hfirst

theorem lexes_mark {t : Token} (hmark : ∀ rest, token? (c :: rest) = some (t, rest))
    (hspace : isSpace c = false) : Lexes [c] [t] :=
  .mark hmark hspace lexes_nil

inductive AwaitsItem : State → List Json → List Frame → Prop
  | first (stack : List Frame) : AwaitsItem (.firstItem stack) [] stack
  | next (items : List Json) (stack : List Frame) :
      AwaitsItem (.value (.array items :: stack)) items stack

inductive AwaitsKey : State → List (String × Json) → List Frame → Prop
  | first (stack : List Frame) : AwaitsKey (.firstKey stack) [] stack
  | next (members : List (String × Json)) (stack : List Frame) :
      AwaitsKey (.nextKey members stack) members stack

/-- Where the tokens of a phrase take the machine, whatever is open around the phrase. What an array
or an object holds is complete with the bracket or brace that closes it. -/
def Drives : Phrase → List Token → Prop
  | .value v, ts | .item v, ts =>
      ∀ stack, ts.foldlM State.step (.value stack) = some (.complete v stack)
  | .items vs, ts => ∀ s items stack, AwaitsItem s items stack →
      (ts ++ [Token.closeArray]).foldlM State.step s =
        some (.complete (array (items.reverse ++ vs)) stack)
  | .member m, ts => ∀ s members stack, AwaitsKey s members stack →
      ts.foldlM State.step s = some (.complete m.2 (.object members m.1 :: stack))
  | .members ms, ts => ∀ s members stack, AwaitsKey s members stack →
      (ts ++ [Token.closeObject]).foldlM State.step s =
        some (.complete (object (members.reverse ++ ms)) stack)

/-- The first item of an array is read like any other: the token that closes the array starts no
value. -/
theorem AwaitsItem.foldlM {s : State} {items : List Json} {stack : List Frame} {v : Json}
    (h : AwaitsItem s items stack) (hts : Drives (.item v) ts) :
    ts.foldlM State.step s = some (.complete v (.array items :: stack)) := by
  have hvalue := hts (.array items :: stack)
  cases h with
  | next => exact hvalue
  | first =>
      cases ts with
      | nil => cases hvalue
      | cons t ts =>
          cases t with
          | closeArray => cases hvalue
          | _ => exact hvalue

theorem AwaitsKey.step {s : State} {members : List (String × Json)} {stack : List Frame}
    (h : AwaitsKey s members stack) (key : String) :
    s.step (.scalar (string key)) = some (.colon members key stack) := by
  cases h with
  | first => rfl
  | next => rfl

theorem Derives.reads {phrase : Phrase} (h : Derives phrase cs) :
    ∃ ts, Lexes cs ts ∧ Drives phrase ts := by
  induction h with
  | scalar h => exact ⟨_, h.lexes, fun stack => rfl⟩
  | emptyArray hw =>
      refine ⟨[.openArray, .closeArray], ?_, fun stack => rfl⟩
      exact .mark (fun _ => rfl) rfl (.spaces_append hw (lexes_mark (fun _ => rfl) rfl))
  | array h ih =>
      obtain ⟨ts, hlexes, hdrives⟩ := ih
      refine ⟨.openArray :: (ts ++ [.closeArray]), .mark (fun _ => rfl) rfl ?_, fun stack => ?_⟩
      · exact hlexes.append (lexes_mark (fun _ => rfl) rfl) (by simp [EndsNumber])
      · exact hdrives _ [] stack (.first stack)
  | emptyObject hw =>
      refine ⟨[.openObject, .closeObject], ?_, fun stack => rfl⟩
      exact .mark (fun _ => rfl) rfl (.spaces_append hw (lexes_mark (fun _ => rfl) rfl))
  | object h ih =>
      obtain ⟨ts, hlexes, hdrives⟩ := ih
      refine ⟨.openObject :: (ts ++ [.closeObject]), .mark (fun _ => rfl) rfl ?_, fun stack => ?_⟩
      · exact hlexes.append (lexes_mark (fun _ => rfl) rfl) (by simp [EndsNumber])
      · exact hdrives _ [] stack (.first stack)
  | @item v w cs w' hw h hw' ih =>
      obtain ⟨ts, hlexes, hdrives⟩ := ih
      have hbehind : Lexes (w' ++ []) [] := .spaces_append hw' lexes_nil
      rw [List.append_nil] at hbehind
      have hboth := hlexes.append hbehind (endsNumber_spaces hw')
      rw [List.append_nil] at hboth
      exact ⟨ts, .spaces_append hw hboth, hdrives⟩
  | lastItem h ih =>
      obtain ⟨ts, hlexes, hdrives⟩ := ih
      refine ⟨ts, hlexes, fun s items stack hs => ?_⟩
      rw [List.foldlM_append, hs.foldlM hdrives]
      simp [State.step]
  | @nextItem v vs cs ds h hmore ih ihmore =>
      obtain ⟨ts, hlexes, hdrives⟩ := ih
      obtain ⟨us, hlexesMore, hdrivesMore⟩ := ihmore
      refine ⟨ts ++ .comma :: us, ?_, fun s items stack hs => ?_⟩
      · exact hlexes.append (.mark (fun _ => rfl) rfl hlexesMore) (by simp [EndsNumber])
      · have hrun := hdrivesMore _ _ stack (.next (v :: items) stack)
        rw [List.reverse_cons, List.append_assoc] at hrun
        rw [List.append_assoc, List.foldlM_append, hs.foldlM hdrives]
        exact hrun
  | @member v w key ks w' cs hw hkey hw' h ih =>
      obtain ⟨ts, hlexes, hdrives⟩ := ih
      refine ⟨.scalar (string (String.ofList key)) :: .colon :: ts, .spaces_append hw ?_,
        fun s members stack hs => ?_⟩
      · have hcolon : Lexes (w' ++ ':' :: cs) (.colon :: ts) :=
          .spaces_append hw' (.mark (fun _ => rfl) rfl hlexes)
        have hends : EndsNumber (w' ++ ':' :: cs) :=
          (endsNumber_spaces hw').append (by simp [EndsNumber])
        simpa using (ScalarText.string hkey).lexes.append hcolon hends
      · rw [List.foldlM_cons, hs.step]
        exact hdrives _
  | lastMember h ih =>
      obtain ⟨ts, hlexes, hdrives⟩ := ih
      refine ⟨ts, hlexes, fun s members stack hs => ?_⟩
      rw [List.foldlM_append, hdrives s members stack hs]
      simp [State.step]
  | @nextMember m ms cs ds h hmore ih ihmore =>
      obtain ⟨ts, hlexes, hdrives⟩ := ih
      obtain ⟨us, hlexesMore, hdrivesMore⟩ := ihmore
      refine ⟨ts ++ .comma :: us, ?_, fun s members stack hs => ?_⟩
      · exact hlexes.append (.mark (fun _ => rfl) rfl hlexesMore) (by simp [EndsNumber])
      · have hrun := hdrivesMore _ _ stack (.next (m :: members) stack)
        rw [List.reverse_cons, List.append_assoc] at hrun
        rw [List.append_assoc, List.foldlM_append, hdrives s members stack hs]
        exact hrun

theorem parse?_of_isText {v : Json} {text : String} (h : IsText v text) : parse? text = some v := by
  obtain ⟨ts, hlexes, hdrives⟩ := h.reads
  have htokens := hlexes [] (by simp [EndsNumber])
  rw [List.append_nil] at htokens
  rw [parse?, htokens]
  simp only [tokensFrom?, Option.map_some, List.append_nil, Option.bind_eq_bind, Option.bind_some,
    hdrives []]

end EnglishPages.Json
