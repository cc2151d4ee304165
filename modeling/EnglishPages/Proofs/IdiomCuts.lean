import EnglishPages.Proofs.Scanning
import EnglishPages.Script.Idiom

/-!
Where a text can be cut without a change to its idioms. A reader of idioms looks no further than the
phrase that it takes and, for a word or a number, at the character behind it. So a phrase that ends
before an edge, which is a hyphen or a line end, is the same phrase whatever stands from the edge on,
and phrases can be replaced in the two parts of a text apart if none reaches over the edge between
them.
-/

namespace EnglishPages.Script

open Text

/-- A text that starts, if at all, with a character that is in no word and in no number. -/
def Edge (cs : List Char) : Prop :=
  ∀ c ∈ cs.head?, c = '-' ∨ c = '\n'

/-- A reader that takes something from the front of a text and looks no further, as far as edges
go. What it takes from a text it takes from any longer one too, and what it takes in front of an edge
it takes without what stands behind. -/
structure Local {α : Type} (read : List Char → Option (α × List Char)) : Prop where
  suffix : ∀ {cs rest a}, read cs = some (a, rest) → rest <:+ cs
  extend : ∀ {cs rest a}, read cs = some (a, rest) →
    ∀ {y}, Edge y → read (cs ++ y) = some (a, rest ++ y)
  restrict : ∀ {cs rest a y}, Edge y → read (cs ++ y) = some (a, rest) →
    y.length ≤ rest.length → ∃ inner, rest = inner ++ y ∧ read cs = some (a, inner)

structure Consuming {α : Type} (read : List Char → Option (α × List Char)) : Prop
    extends Local read where
  shrinks : ∀ {cs rest a}, read cs = some (a, rest) → rest.length < cs.length

section Readers

variable {α β : Type}

theorem exists_eq_append_of_suffix {cs y rest : List Char} (h : rest <:+ cs ++ y)
    (hlength : y.length ≤ rest.length) : ∃ inner, rest = inner ++ y ∧ inner <:+ cs := by
  obtain ⟨front, hfront⟩ := h
  rcases List.append_eq_append_iff.1 hfront with ⟨inner, rfl, rfl⟩ | ⟨more, rfl, rfl⟩
  · exact ⟨inner, rfl, front, rfl⟩
  · have hmore : more = [] := by
      rw [List.length_append] at hlength
      exact List.eq_nil_of_length_eq_zero (by omega)
    subst hmore
    exact ⟨[], rfl, cs, by simp⟩

theorem afterKeyword?_extend {ks cs rest : List Char} (h : afterKeyword? ks cs = some rest)
    (y : List Char) : afterKeyword? ks (cs ++ y) = some (rest ++ y) := by
  induction ks generalizing cs with
  | nil =>
      rw [afterKeyword?_nil] at h ⊢
      rw [Option.some.inj h]
  | cons k ks ih =>
      cases cs with
      | nil => cases h
      | cons c cs =>
          simp only [afterKeyword?, List.cons_append] at h ⊢
          split at h
          · next hc => rw [if_pos hc, ih h]
          · cases h

theorem afterKeyword?_restrict {ks cs rest y : List Char}
    (h : afterKeyword? ks (cs ++ y) = some rest) (hlength : y.length ≤ rest.length) :
    ∃ inner, rest = inner ++ y ∧ afterKeyword? ks cs = some inner := by
  induction ks generalizing cs with
  | nil =>
      rw [afterKeyword?_nil] at h
      exact ⟨cs, (Option.some.inj h).symm, afterKeyword?_nil cs⟩
  | cons k ks ih =>
      cases cs with
      | nil =>
          have hy := length_of_afterKeyword? h
          rw [List.nil_append, List.length_cons] at hy
          omega
      | cons c cs =>
          simp only [afterKeyword?, List.cons_append] at h ⊢
          split at h
          · next hc => simpa only [if_pos hc] using ih h
          · cases h

theorem Local.pure (a : α) : Local fun cs => some (a, cs) where
  suffix h := by
    obtain ⟨-, rfl⟩ := Prod.mk.inj (Option.some.inj h)
    exact List.suffix_refl _
  extend h y _ := by
    obtain ⟨rfl, rfl⟩ := Prod.mk.inj (Option.some.inj h)
    rfl
  restrict _ h _ := by
    obtain ⟨rfl, rfl⟩ := Prod.mk.inj (Option.some.inj h)
    exact ⟨_, rfl, rfl⟩

theorem Consuming.bind {read : List Char → Option (α × List Char)}
    {next : α × List Char → Option (β × List Char)} (hread : Consuming read)
    (hnext : ∀ a, Local fun cs => next (a, cs)) : Consuming fun cs => (read cs).bind next where
  suffix h := by
    obtain ⟨⟨a, between⟩, hfirst, hsecond⟩ := Option.bind_eq_some_iff.1 h
    exact ((hnext a).suffix hsecond).trans (hread.suffix hfirst)
  shrinks h := by
    obtain ⟨⟨a, between⟩, hfirst, hsecond⟩ := Option.bind_eq_some_iff.1 h
    exact Nat.lt_of_le_of_lt ((hnext a).suffix hsecond).length_le (hread.shrinks hfirst)
  extend h y hy := by
    obtain ⟨⟨a, between⟩, hfirst, hsecond⟩ := Option.bind_eq_some_iff.1 h
    exact Option.bind_eq_some_iff.2
      ⟨(a, between ++ y), hread.extend hfirst hy, (hnext a).extend hsecond hy⟩
  restrict hy h hlength := by
    obtain ⟨⟨a, between⟩, hfirst, hsecond⟩ := Option.bind_eq_some_iff.1 h
    have hle := ((hnext a).suffix hsecond).length_le
    obtain ⟨inner, rfl, hinner⟩ := hread.restrict hy hfirst (Nat.le_trans hlength hle)
    obtain ⟨innermost, rfl, hinnermost⟩ := (hnext a).restrict hy hsecond hlength
    exact ⟨innermost, rfl, Option.bind_eq_some_iff.2 ⟨(a, inner), hinner, hinnermost⟩⟩

theorem run?_append_edge {p : Char → Bool} (hdash : p '-' = false) (hnewline : p '\n' = false)
    (cs : List Char) {y : List Char} (hy : Edge y) :
    run? p (cs ++ y) = (run? p cs).map fun r => (r.1, r.2 ++ y) := by
  have hstop : y.takeWhile p = [] ∧ y.dropWhile p = y := by
    cases y with
    | nil => exact ⟨rfl, rfl⟩
    | cons c y =>
        have hc : p c = false := by
          rcases hy c rfl with rfl | rfl
          · exact hdash
          · exact hnewline
        simp [hc]
  have hcut : (cs ++ y).takeWhile p = cs.takeWhile p ∧
      (cs ++ y).dropWhile p = cs.dropWhile p ++ y := by
    induction cs with
    | nil => exact hstop
    | cons c cs ih =>
        by_cases hc : p c = true
        · simp [hc, ih]
        · simp [hc]
  rw [run?, run?, hcut.1, hcut.2]
  cases cs.takeWhile p <;> rfl

theorem Consuming.run {p : Char → Bool} (hdash : p '-' = false) (hnewline : p '\n' = false) :
    Consuming (run? p) where
  suffix h := run?_suffix h
  shrinks {cs rest w} h := by
    have hlength := congrArg List.length (run?_append h)
    have hpos := List.length_pos_iff.2 (run?_ne_nil h)
    rw [List.length_append] at hlength
    omega
  extend h y hy := by
    rw [run?_append_edge hdash hnewline _ hy, h]
    rfl
  restrict hy h _ := by
    rw [run?_append_edge hdash hnewline _ hy] at h
    obtain ⟨⟨w, inner⟩, hrun, hr⟩ := Option.map_eq_some_iff.1 h
    obtain ⟨rfl, rfl⟩ := Prod.mk.inj hr
    exact ⟨inner, rfl, hrun⟩

theorem Local.keyword {ks : List Char} (hks : ks ≠ [])
    {next : List Char → Option (α × List Char)} (hnext : Local next) :
    Consuming fun cs => (afterKeyword? ks cs).bind next where
  suffix h := by
    obtain ⟨between, hfirst, hsecond⟩ := Option.bind_eq_some_iff.1 h
    exact (hnext.suffix hsecond).trans (afterKeyword?_suffix hfirst)
  shrinks h := by
    obtain ⟨between, hfirst, hsecond⟩ := Option.bind_eq_some_iff.1 h
    have hlength := length_of_afterKeyword? hfirst
    have hpos := List.length_pos_iff.2 hks
    have hle := (hnext.suffix hsecond).length_le
    omega
  extend h y hy := by
    obtain ⟨between, hfirst, hsecond⟩ := Option.bind_eq_some_iff.1 h
    exact Option.bind_eq_some_iff.2
      ⟨between ++ y, afterKeyword?_extend hfirst y, hnext.extend hsecond hy⟩
  restrict hy h hlength := by
    obtain ⟨between, hfirst, hsecond⟩ := Option.bind_eq_some_iff.1 h
    have hle := (hnext.suffix hsecond).length_le
    obtain ⟨inner, rfl, hinner⟩ := afterKeyword?_restrict hfirst (Nat.le_trans hlength hle)
    obtain ⟨innermost, rfl, hinnermost⟩ := hnext.restrict hy hsecond hlength
    exact ⟨innermost, rfl, Option.bind_eq_some_iff.2 ⟨inner, hinner, hinnermost⟩⟩

theorem Consuming.blanks {next : List Char → Option (α × List Char)} (hnext : Consuming next) :
    Consuming fun cs => (afterBlanks? cs).bind next where
  suffix h := by
    obtain ⟨between, hfirst, hsecond⟩ := Option.bind_eq_some_iff.1 h
    exact (hnext.suffix hsecond).trans (afterBlanks?_suffix hfirst)
  shrinks h := by
    obtain ⟨between, hfirst, hsecond⟩ := Option.bind_eq_some_iff.1 h
    exact Nat.lt_of_lt_of_le (hnext.shrinks hsecond) (afterBlanks?_suffix hfirst).length_le
  extend {cs rest a} h y hy := by
    obtain ⟨between, hfirst, hsecond⟩ := Option.bind_eq_some_iff.1 h
    have hne : between ≠ [] := List.length_pos_iff.1 (Nat.zero_lt_of_lt (hnext.shrinks hsecond))
    refine Option.bind_eq_some_iff.2 ⟨between ++ y, ?_, hnext.extend hsecond hy⟩
    cases cs with
    | nil => cases hfirst
    | cons c cs =>
        simp only [afterBlanks?, List.cons_append] at hfirst ⊢
        split at hfirst
        · next hc =>
            obtain rfl := Option.some.inj hfirst
            rw [if_pos hc, trimStart_append_of_ne_nil hne]
        · cases hfirst
  restrict {cs rest a y} hy h hlength := by
    obtain ⟨between, hfirst, hsecond⟩ := Option.bind_eq_some_iff.1 h
    have hlt := hnext.shrinks hsecond
    cases cs with
    | nil =>
        have hle := (afterBlanks?_suffix hfirst).length_le
        rw [List.nil_append] at hle
        omega
    | cons c cs =>
        simp only [afterBlanks?, List.cons_append] at hfirst
        split at hfirst
        · next hc =>
            obtain rfl := Option.some.inj hfirst
            by_cases hblank : trimStart cs = []
            · have hle := (trimStart_suffix y).length_le
              rw [trimStart_append_of_eq_nil hblank] at hlt
              omega
            · rw [trimStart_append_of_ne_nil hblank] at hsecond
              obtain ⟨inner, rfl, hinner⟩ := hnext.restrict hy hsecond hlength
              exact ⟨inner, rfl, Option.bind_eq_some_iff.2
                ⟨trimStart cs, by simp [afterBlanks?, hc], hinner⟩⟩
        · cases hfirst

theorem Consuming.leading {keyword : String} (hkeyword : keyword.toList ≠ [])
    {next : List Char → Option (α × List Char)} (hnext : Consuming next) :
    Consuming fun cs => (afterLeading? keyword cs).bind next := by
  have h := Local.keyword hkeyword hnext.blanks.toLocal
  simp only [← Option.bind_assoc] at h
  exact h

end Readers

def IsQuote (c : Char) : Prop := c = '"' ∨ c = '\''

theorem run?_eq_some_cons_iff {p : Char → Bool} {cs w rest : List Char} {c : Char} :
    run? p cs = some (w, c :: rest) ↔
      cs = w ++ c :: rest ∧ w ≠ [] ∧ (∀ d ∈ w, p d = true) ∧ p c = false := by
  constructor
  · intro h
    have hdrop : cs.dropWhile p = c :: rest ∧ w ≠ [] := by
      unfold run? at h
      split at h
      · cases h
      · next hne =>
          obtain ⟨rfl, hrest⟩ := Prod.mk.inj (Option.some.inj h)
          exact ⟨hrest, hne⟩
    refine ⟨run?_append h, hdrop.2, run?_all h, ?_⟩
    have hhead := List.head?_dropWhile_not p cs
    rw [hdrop.1] at hhead
    simpa using hhead
  · rintro ⟨rfl, hne, hall, hc⟩
    have htake : (w ++ c :: rest).takeWhile p = w := by
      rw [List.takeWhile_append_of_pos hall, List.takeWhile_cons_of_neg (by simp [hc]),
        List.append_nil]
    have hdrop : (w ++ c :: rest).dropWhile p = c :: rest := by
      rw [List.dropWhile_append_of_pos hall, List.dropWhile_cons_of_neg (by simp [hc])]
    obtain ⟨d, w, rfl⟩ := List.exists_cons_of_ne_nil hne
    rw [run?, htake, hdrop]

theorem quoted?_eq_some_iff {cs inside rest : List Char} :
    quoted? cs = some (inside, rest) ↔
      ∃ q q', IsQuote q ∧ IsQuote q' ∧ inside ≠ [] ∧ (∀ c ∈ inside, ¬ IsQuote c) ∧
        cs = q :: (inside ++ q' :: rest) := by
  have hquote (c : Char) : (c == '"' || c == '\'') = true ↔ IsQuote c := by simp [IsQuote]
  have hplain (c : Char) : (!(c == '"' || c == '\'')) = true ↔ ¬ IsQuote c := by
    rw [← hquote, Bool.not_eq_true', Bool.not_eq_true]
  have hmark (c : Char) : (!(c == '"' || c == '\'')) = false ↔ IsQuote c := by
    rw [← hquote, Bool.not_eq_false']
  constructor
  · intro h
    cases cs with
    | nil => cases h
    | cons q cs =>
        simp only [quoted?] at h
        split at h
        · next hq =>
            split at h
            · next inside' q' rest' hrun =>
                obtain ⟨rfl, rfl⟩ := Prod.mk.inj (Option.some.inj h)
                obtain ⟨hcs, hne, hall, hstop⟩ := run?_eq_some_cons_iff.1 hrun
                exact ⟨q, q', (hquote q).1 hq, (hmark q').1 hstop, hne,
                  fun c hc => (hplain c).1 (hall c hc), congrArg (q :: ·) hcs⟩
            · cases h
        · cases h
  · rintro ⟨q, q', hq, hq', hne, hinside, rfl⟩
    have hrun : run? (fun c => !(c == '"' || c == '\'')) (inside ++ q' :: rest) =
        some (inside, q' :: rest) :=
      run?_eq_some_cons_iff.2
        ⟨rfl, hne, fun c hc => (hplain c).2 (hinside c hc), (hmark q').2 hq'⟩
    simp only [quoted?, (hquote q).2 hq, if_true, hrun]

theorem Consuming.quoted : Consuming quoted? where
  suffix {cs rest inside} h := by
    obtain ⟨q, q', -, -, -, -, rfl⟩ := quoted?_eq_some_iff.1 h
    exact ⟨q :: (inside ++ [q']), by simp⟩
  shrinks h := by
    obtain ⟨q, q', -, -, -, -, rfl⟩ := quoted?_eq_some_iff.1 h
    simp only [List.length_cons, List.length_append]
    omega
  extend h y _ := by
    obtain ⟨q, q', hq, hq', hne, hinside, rfl⟩ := quoted?_eq_some_iff.1 h
    exact quoted?_eq_some_iff.2 ⟨q, q', hq, hq', hne, hinside, by simp⟩
  restrict {cs rest inside y} _ h hlength := by
    obtain ⟨q, q', hq, hq', hne, hinside, hcs⟩ := quoted?_eq_some_iff.1 h
    have hsuffix : rest <:+ cs ++ y := ⟨q :: (inside ++ [q']), by simp [hcs]⟩
    obtain ⟨inner, rfl, hinner⟩ := exists_eq_append_of_suffix hsuffix hlength
    refine ⟨inner, rfl, quoted?_eq_some_iff.2 ⟨q, q', hq, hq', hne, hinside, ?_⟩⟩
    have hparts : cs ++ y = q :: (inside ++ q' :: inner) ++ y := by simpa using hcs
    exact List.append_cancel_right hparts

theorem Consuming.lookup {phrase method : String} (hphrase : phrase.toList ≠ []) :
    Consuming (lookup phrase method) :=
  Consuming.leading hphrase (Consuming.quoted.bind fun _ => Local.pure _)

theorem isWord_edges : isWord '-' = false ∧ isWord '\n' = false := by
  decide +kernel

theorem isDecimalDigit_edges : isDecimalDigit '-' = false ∧ isDecimalDigit '\n' = false := by
  decide +kernel

theorem Consuming.word : Consuming word? :=
  Consuming.run isWord_edges.1 isWord_edges.2

theorem Consuming.digits : Consuming digits? :=
  Consuming.run isDecimalDigit_edges.1 isDecimalDigit_edges.2

theorem Consuming.animationFrame {phrase : String} (hphrase : phrase.toList ≠ []) :
    Consuming (animationFrame phrase) :=
  Consuming.leading hphrase (Consuming.word.bind fun _ => Local.pure _)

theorem Consuming.countingLoop : Consuming countingLoop := by
  refine Consuming.leading (by decide) ?_
  refine Consuming.word.bind fun name => Consuming.toLocal ?_
  refine Consuming.blanks (Consuming.leading (by decide) ?_)
  refine Consuming.digits.bind fun low => Consuming.toLocal ?_
  refine Consuming.blanks (Consuming.leading (by decide) ?_)
  exact Consuming.digits.bind fun high => Local.pure _

/-- What the idioms have in common, as far as cuts go: a phrase is read locally, and none starts with
an edge. -/
structure Cuttable (idiom : Idiom) : Prop extends Consuming idiom where
  dash : ∀ cs, idiom ('-' :: cs) = none
  newline : ∀ cs, idiom ('\n' :: cs) = none

theorem cuttable_idioms : ∀ idiom ∈ idioms, Cuttable idiom := by
  simp only [idioms, List.forall_mem_cons, List.not_mem_nil, false_imp_iff, implies_true, and_true]
  exact ⟨⟨.lookup (by decide), fun _ => rfl, fun _ => rfl⟩,
    ⟨.lookup (by decide), fun _ => rfl, fun _ => rfl⟩,
    ⟨.animationFrame (by decide), fun _ => rfl, fun _ => rfl⟩,
    ⟨.animationFrame (by decide), fun _ => rfl, fun _ => rfl⟩,
    ⟨.countingLoop, fun _ => rfl, fun _ => rfl⟩⟩

section Replacing

variable {idiom : Idiom}

theorem replaceAll_of_some (hidiom : Consuming idiom) {cs out rest : List Char}
    (h : idiom cs = some (out, rest)) : replaceAll idiom cs = out ++ replaceAll idiom rest := by
  have hlt := hidiom.shrinks h
  cases cs with
  | nil => simp at hlt
  | cons c cs =>
      have hrest : rest <:+ cs := by
        rcases List.suffix_cons_iff.1 (hidiom.suffix h) with rfl | hrest
        · simp at hlt
        · exact hrest
      simp only [replaceAll, replaceFrom, h]
      rw [replaceFrom_eq_drop, ← List.suffix_iff_eq_drop.1 hrest]
      rfl

theorem Consuming.replace_induction (hidiom : Consuming idiom) {motive : List Char → Prop}
    (nil : motive [])
    (keep : ∀ c cs, idiom (c :: cs) = none → motive cs → motive (c :: cs))
    (replace : ∀ cs out rest, idiom cs = some (out, rest) → motive rest → motive cs)
    (cs : List Char) : motive cs := by
  induction hlength : cs.length using Nat.strongRecOn generalizing cs with
  | ind n ih =>
      subst hlength
      cases hcs : idiom cs with
      | some r => exact replace cs r.1 r.2 hcs (ih _ (hidiom.shrinks hcs) r.2 rfl)
      | none =>
          cases cs with
          | nil => exact nil
          | cons c cs => exact keep c cs hcs (ih _ (by simp) cs rfl)

def StaysIn (idiom : Idiom) (x y : List Char) : Prop :=
  ∀ n < x.length, ∀ r ∈ idiom (x.drop n ++ y), y.length ≤ r.2.length

instance (idiom : Idiom) (x y : List Char) : Decidable (StaysIn idiom x y) :=
  @Nat.decidableBallLT _ _ fun _ _ => Option.decidableForallMem _

theorem StaysIn.of_suffix {x y z : List Char} (h : StaysIn idiom x y) (hz : z <:+ x) :
    StaysIn idiom z y := by
  intro n hn r hr
  have hle := hz.length_le
  refine h (x.length - z.length + n) (by omega) r ?_
  rwa [← List.drop_drop, ← List.suffix_iff_eq_drop.1 hz]

theorem replaceAll_append (hidiom : Cuttable idiom) {x y : List Char} (hy : Edge y)
    (hstays : StaysIn idiom x y) :
    replaceAll idiom (x ++ y) = replaceAll idiom x ++ replaceAll idiom y := by
  induction x using hidiom.replace_induction with
  | nil => rfl
  | keep c cs hnone ih =>
      have hjoined : idiom (c :: (cs ++ y)) = none := by
        refine Option.eq_none_iff_forall_ne_some.2 fun r hr => ?_
        have hlength := hstays 0 (by simp) r hr
        have hr : idiom (c :: cs ++ y) = some r := hr
        obtain ⟨inner, -, hinner⟩ := hidiom.restrict hy hr hlength
        rw [hnone] at hinner
        cases hinner
      rw [List.cons_append, replaceAll_cons_of_none hjoined, replaceAll_cons_of_none hnone,
        ih (hstays.of_suffix (List.suffix_cons c cs))]
      rfl
  | replace cs out rest hsome ih =>
      rw [replaceAll_of_some hidiom.toConsuming hsome,
        replaceAll_of_some hidiom.toConsuming (hidiom.extend hsome hy),
        ih (hstays.of_suffix (hidiom.suffix hsome)), List.append_assoc]

end Replacing

/-- No phrase that starts in one of the parts of a text goes on into the next. -/
def Within (idiom : Idiom) : List (List Char) → Prop
  | [] => True
  | part :: parts => StaysIn idiom part parts.flatten ∧ Within idiom parts

instance decidableWithin (idiom : Idiom) : (parts : List (List Char)) →
    Decidable (Within idiom parts)
  | [] => isTrue trivial
  | _ :: parts => @instDecidableAnd _ _ inferInstance (decidableWithin idiom parts)

def Apart : List Idiom → List (List Char) → Prop
  | [], _ => True
  | idiom :: rest, parts => Within idiom parts ∧ Apart rest (parts.map (replaceAll idiom))

instance decidableApart : (is : List Idiom) → (parts : List (List Char)) →
    Decidable (Apart is parts)
  | [], _ => isTrue trivial
  | idiom :: rest, parts =>
      @instDecidableAnd _ _ (decidableWithin idiom parts)
        (decidableApart rest (parts.map (replaceAll idiom)))

theorem Edge.replaceAll {idiom : Idiom} (hidiom : Cuttable idiom) {cs : List Char} (h : Edge cs) :
    Edge (replaceAll idiom cs) := by
  cases cs with
  | nil => exact h
  | cons c cs =>
      have hnone : idiom (c :: cs) = none := by
        rcases h c rfl with rfl | rfl
        · exact hidiom.dash cs
        · exact hidiom.newline cs
      rw [replaceAll_cons_of_none hnone]
      exact h

theorem Edge.flatten {parts : List (List Char)} (h : ∀ part ∈ parts, Edge part) :
    Edge parts.flatten := by
  induction parts with
  | nil => simp [Edge]
  | cons part parts ih =>
      cases part with
      | nil => exact ih fun part hmem => h part (List.mem_cons_of_mem _ hmem)
      | cons c cs => exact h (c :: cs) List.mem_cons_self

theorem replaceAll_flatten {idiom : Idiom} (hidiom : Cuttable idiom) {parts : List (List Char)}
    (hedges : ∀ part ∈ parts.tail, Edge part) (h : Within idiom parts) :
    replaceAll idiom parts.flatten = (parts.map (replaceAll idiom)).flatten := by
  induction parts with
  | nil => rfl
  | cons part parts ih =>
      have hedge : Edge parts.flatten := Edge.flatten hedges
      rw [List.flatten_cons, replaceAll_append hidiom hedge h.1,
        ih (fun part hmem => hedges part (List.mem_of_mem_tail hmem)) h.2, List.map_cons,
        List.flatten_cons]

def expand (is : List Idiom) (cs : List Char) : List Char :=
  is.foldl (fun text idiom => replaceAll idiom text) cs

theorem expand_flatten {is : List Idiom} (his : ∀ idiom ∈ is, Cuttable idiom)
    {parts : List (List Char)} (hedges : ∀ part ∈ parts.tail, Edge part) (h : Apart is parts) :
    expand is parts.flatten = (parts.map (expand is)).flatten := by
  induction is generalizing parts with
  | nil =>
      change parts.flatten = (parts.map id).flatten
      rw [List.map_id]
  | cons idiom rest ih =>
      have hidiom := his idiom List.mem_cons_self
      have hmapped : ∀ part ∈ (parts.map (replaceAll idiom)).tail, Edge part := by
        intro part hpart
        rw [← List.map_tail] at hpart
        obtain ⟨old, hold, rfl⟩ := List.mem_map.1 hpart
        exact (hedges old hold).replaceAll hidiom
      change expand rest (replaceAll idiom parts.flatten) = _
      rw [replaceAll_flatten hidiom hedges h.1,
        ih (fun idiom hmem => his idiom (List.mem_cons_of_mem _ hmem)) hmapped h.2, List.map_map]
      rfl

theorem expand_induction {is : List Idiom} {motive : List Char → Prop}
    (step : ∀ idiom ∈ is, ∀ cs, motive cs → motive (replaceAll idiom cs)) {cs : List Char}
    (h : motive cs) : motive (expand is cs) := by
  induction is generalizing cs with
  | nil => exact h
  | cons idiom rest ih =>
      exact ih (fun idiom hmem => step idiom (List.mem_cons_of_mem _ hmem))
        (step idiom List.mem_cons_self cs h)

end EnglishPages.Script
