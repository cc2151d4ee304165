import EnglishPages.Proofs.IdiomCuts
import EnglishPages.Proofs.ScriptResets
import Mathlib.Data.List.Chain

/-!
Comments of a script source. They are dropped line by line, but only after the idioms have been
replaced in the whole text, so a comment can be part of a phrase: one that ends in `for` takes the
next line for the rest of a loop header.

That is the only way in which a comment matters. A source is read as passages, each of them code,
perhaps of several lines, and the comment that ends it. If no phrase reaches from code into a comment
or from a comment into code, the idioms are replaced in each part alone, a comment stays a comment,
and the script is made of the code of the passages. If moreover no phrase of the code goes over a
place where a comment stands, it is the script of the source without its comments.
-/

namespace EnglishPages.Script

open Text

def Undashed (cs : List Char) : Prop :=
  cs.IsChain fun c d => ¬ (c = '-' ∧ d = '-')

theorem undashed_append {cs ds : List Char} :
    Undashed (cs ++ ds) ↔
      Undashed cs ∧ Undashed ds ∧ ∀ c ∈ cs.getLast?, ∀ d ∈ ds.head?, ¬ (c = '-' ∧ d = '-') :=
  List.isChain_append

theorem Undashed.of_infix {cs ds : List Char} (h : Undashed cs) (hds : ds <:+: cs) : Undashed ds :=
  List.IsChain.infix h hds

theorem undashed_of_not_mem {cs : List Char} (h : '-' ∉ cs) : Undashed cs := by
  induction cs with
  | nil => exact .nil
  | cons c cs ih =>
      refine List.isChain_cons.2 ⟨?_, ih fun hmem => h (List.mem_cons_of_mem c hmem)⟩
      rintro d - ⟨rfl, -⟩
      exact h List.mem_cons_self

theorem withoutComment_cons {c : Char} {cs : List Char}
    (h : ∀ d ∈ cs.head?, ¬ (c = '-' ∧ d = '-')) :
    withoutComment (c :: cs) = c :: withoutComment cs := by
  rw [withoutComment]
  rintro rest rfl rfl
  exact h '-' rfl ⟨rfl, rfl⟩

def commentOf : List Char → List Char
  | [] => []
  | '-' :: '-' :: cs => '-' :: '-' :: cs
  | _ :: cs => commentOf cs

theorem withoutComment_append_commentOf (line : List Char) :
    withoutComment line ++ commentOf line = line := by
  fun_induction withoutComment line with
  | case1 => rfl
  | case2 cs => rfl
  | case3 c cs hdash ih =>
      rw [commentOf]
      · rw [List.cons_append, ih]
      · exact hdash

theorem withoutComment_commentOf (line : List Char) : withoutComment (commentOf line) = [] := by
  fun_induction commentOf line with
  | case1 => rfl
  | case2 cs => rfl
  | case3 c cs hdash ih => exact ih

theorem head?_append_take_one (cs ds : List Char) :
    (cs ++ ds.take 1).head? = (cs ++ ds).head? := by
  cases cs with
  | nil => cases ds <;> rfl
  | cons c cs => rfl

theorem undashed_withoutComment (line : List Char) :
    Undashed (withoutComment line ++ (commentOf line).take 1) := by
  fun_induction withoutComment line with
  | case1 => exact .nil
  | case2 cs => exact .singleton '-'
  | case3 c cs hdash ih =>
      rw [commentOf]
      · have hhead : (withoutComment cs ++ (commentOf cs).take 1).head? = cs.head? := by
          rw [head?_append_take_one, withoutComment_append_commentOf]
        refine List.isChain_cons.2 ⟨?_, ih⟩
        rintro d hd ⟨rfl, rfl⟩
        replace hd := hhead.symm.trans hd
        obtain ⟨rest, rfl⟩ := List.head?_eq_some_iff.1 hd
        exact hdash rest rfl rfl
      · exact hdash

/-- What replaces a phrase has no line end unless the phrase has one, and makes no two hyphens in a
row unless the phrase has them, also together with hyphens around it. -/
structure Tidy (idiom : Idiom) : Prop extends Cuttable idiom where
  newline_of_mem : ∀ {cs out rest}, idiom cs = some (out, rest) → '\n' ∈ out → '\n' ∈ cs
  undashed : ∀ {cs out rest}, idiom cs = some (out, rest) → Undashed cs →
    Undashed ('-' :: (out ++ ['-']))

theorem Undashed.enclosed {front inside back : List Char} (hfront : '-' ∉ front)
    (hne : front ≠ []) (hback : '-' ∉ back) (hne' : back ≠ []) (hinside : Undashed inside) :
    Undashed ('-' :: (front ++ inside ++ back ++ ['-'])) := by
  have hleft : Undashed (['-'] ++ front) := by
    refine undashed_append.2 ⟨.singleton _, undashed_of_not_mem hfront, ?_⟩
    rintro c - d hd ⟨-, rfl⟩
    exact hfront (List.mem_of_mem_head? hd)
  have hright : Undashed (back ++ ['-']) := by
    refine undashed_append.2 ⟨undashed_of_not_mem hback, .singleton _, ?_⟩
    rintro c hc d - ⟨rfl, -⟩
    exact hback (List.mem_of_getLast? hc)
  have hrest : Undashed (inside ++ (back ++ ['-'])) := by
    refine undashed_append.2 ⟨hinside, hright, ?_⟩
    rintro c - d hd ⟨-, rfl⟩
    obtain ⟨b, bs, rfl⟩ := List.exists_cons_of_ne_nil hne'
    exact hback (List.mem_of_mem_head? hd)
  have hall : Undashed (['-'] ++ front ++ (inside ++ (back ++ ['-']))) := by
    refine undashed_append.2 ⟨hleft, hrest, ?_⟩
    rintro c hc d - ⟨rfl, -⟩
    rw [List.getLast?_append_of_ne_nil _ hne] at hc
    exact hfront (List.mem_of_getLast? hc)
  simpa using hall

section Idioms

variable {cs out rest : List Char}

theorem lookup_eq_some {phrase method : String} (h : lookup phrase method cs = some (out, rest)) :
    ∃ inside, inside <:+: cs ∧
      out = ("document." ++ method ++ "(\"").toList ++ inside ++ "\")".toList := by
  obtain ⟨quoted, hquoted, h⟩ := Option.bind_eq_some_iff.1 h
  obtain ⟨⟨inside, rest'⟩, hinside, hout⟩ := Option.bind_eq_some_iff.1 h
  obtain ⟨q, q', -, -, -, -, rfl⟩ := quoted?_eq_some_iff.1 hinside
  have hinfix : inside <:+: q :: (inside ++ q' :: rest') := ⟨[q], q' :: rest', by simp⟩
  exact ⟨inside, hinfix.trans (afterLeading?_suffix hquoted).isInfix,
    (Prod.mk.inj (Option.some.inj hout)).1.symm⟩

theorem animationFrame_eq_some {phrase : String} (h : animationFrame phrase cs = some (out, rest)) :
    ∃ name, (∀ c ∈ name, isWord c = true) ∧
      out = "requestAnimationFrame(".toList ++ name ++ ")".toList := by
  obtain ⟨between, -, h⟩ := Option.bind_eq_some_iff.1 h
  obtain ⟨⟨name, rest'⟩, hname, hout⟩ := Option.bind_eq_some_iff.1 h
  exact ⟨name, word?_all hname, (Prod.mk.inj (Option.some.inj hout)).1.symm⟩

theorem countingLoop_eq_some (h : countingLoop cs = some (out, rest)) :
    ∃ name low high, (∀ c ∈ name, isWord c = true) ∧ (∀ c ∈ low, isDecimalDigit c = true) ∧
      (∀ c ∈ high, isDecimalDigit c = true) ∧
      out = "for (let ".toList ++ (name ++ " = ".toList ++ low ++ "; ".toList ++ name ++
        " <= ".toList ++ high ++ "; ".toList ++ name) ++ "++) \x7b".toList := by
  obtain ⟨_, -, h⟩ := Option.bind_eq_some_iff.1 h
  obtain ⟨⟨name, _⟩, hname, h⟩ := Option.bind_eq_some_iff.1 h
  obtain ⟨_, -, h⟩ := Option.bind_eq_some_iff.1 h
  obtain ⟨_, -, h⟩ := Option.bind_eq_some_iff.1 h
  obtain ⟨⟨low, _⟩, hlow, h⟩ := Option.bind_eq_some_iff.1 h
  obtain ⟨_, -, h⟩ := Option.bind_eq_some_iff.1 h
  obtain ⟨_, -, h⟩ := Option.bind_eq_some_iff.1 h
  obtain ⟨⟨high, _⟩, hhigh, hout⟩ := Option.bind_eq_some_iff.1 h
  refine ⟨name, low, high, word?_all hname, run?_all hlow, run?_all hhigh, ?_⟩
  rw [← (Prod.mk.inj (Option.some.inj hout)).1]
  simp

end Idioms

theorem tidy_lookup {phrase method : String} (hcut : Cuttable (lookup phrase method))
    (hdash : '-' ∉ method.toList) (hnewline : '\n' ∉ method.toList) :
    Tidy (lookup phrase method) := by
  refine ⟨hcut, fun h hmem => ?_, fun h hcs => ?_⟩
  · obtain ⟨inside, hinfix, rfl⟩ := lookup_eq_some h
    refine hinfix.subset ?_
    simpa [hnewline] using hmem
  · obtain ⟨inside, hinfix, rfl⟩ := lookup_eq_some h
    exact .enclosed (by simpa using hdash) (by simp) (by decide) (by decide) (hcs.of_infix hinfix)

theorem tidy_animationFrame {phrase : String} (hcut : Cuttable (animationFrame phrase)) :
    Tidy (animationFrame phrase) := by
  refine ⟨hcut, fun h hmem => ?_, fun h _ => ?_⟩
  · obtain ⟨name, hname, rfl⟩ := animationFrame_eq_some h
    simp [not_mem_of_all hname isWord_edges.2] at hmem
  · obtain ⟨name, hname, rfl⟩ := animationFrame_eq_some h
    exact .enclosed (by decide) (by decide) (by decide) (by decide)
      (undashed_of_not_mem (not_mem_of_all hname isWord_edges.1))

theorem tidy_countingLoop (hcut : Cuttable countingLoop) : Tidy countingLoop := by
  refine ⟨hcut, fun h hmem => ?_, fun h _ => ?_⟩
  · obtain ⟨name, low, high, hname, hlow, hhigh, rfl⟩ := countingLoop_eq_some h
    simp [not_mem_of_all hname isWord_edges.2, not_mem_of_all hlow isDecimalDigit_edges.2,
      not_mem_of_all hhigh isDecimalDigit_edges.2] at hmem
  · obtain ⟨name, low, high, hname, hlow, hhigh, rfl⟩ := countingLoop_eq_some h
    refine .enclosed (by decide) (by decide) (by decide) (by decide) (undashed_of_not_mem ?_)
    simp [not_mem_of_all hname isWord_edges.1, not_mem_of_all hlow isDecimalDigit_edges.1,
      not_mem_of_all hhigh isDecimalDigit_edges.1]

theorem tidy_idioms : ∀ idiom ∈ idioms, Tidy idiom := by
  have hcut := cuttable_idioms
  simp only [idioms, List.forall_mem_cons, List.not_mem_nil, false_imp_iff, implies_true,
    and_true] at hcut ⊢
  exact ⟨tidy_lookup hcut.1 (by decide) (by decide), tidy_lookup hcut.2.1 (by decide) (by decide),
    tidy_animationFrame hcut.2.2.1, tidy_animationFrame hcut.2.2.2.1,
    tidy_countingLoop hcut.2.2.2.2⟩

section Replacing

variable {idiom : Idiom} (hidiom : Tidy idiom)

include hidiom

theorem newline_of_mem_replaceAll {cs : List Char} (h : '\n' ∈ replaceAll idiom cs) :
    '\n' ∈ cs := by
  induction cs using hidiom.replace_induction with
  | nil => exact h
  | keep c cs hnone ih =>
      rw [replaceAll_cons_of_none hnone] at h
      rcases List.mem_cons.1 h with rfl | h
      · exact List.mem_cons_self
      · exact List.mem_cons_of_mem c (ih h)
  | replace cs out rest hsome ih =>
      rw [replaceAll_of_some hidiom.toConsuming hsome] at h
      rcases List.mem_append.1 h with h | h
      · exact hidiom.newline_of_mem hsome h
      · exact (hidiom.suffix hsome).mem (ih h)

theorem head?_of_replaceAll_append {cs tail : List Char} (h : Undashed cs)
    (hhead : (replaceAll idiom cs ++ tail).head? = some '-') : (cs ++ tail).head? = some '-' := by
  cases hcs : idiom cs with
  | none =>
      cases cs with
      | nil => exact hhead
      | cons c cs => rwa [replaceAll_cons_of_none hcs] at hhead
  | some r =>
      obtain ⟨out, rest⟩ := r
      have hout := hidiom.undashed hcs h
      rw [replaceAll_of_some hidiom.toConsuming hcs] at hhead
      cases out with
      | nil => exact absurd hout (by simp [Undashed])
      | cons c out =>
          obtain rfl : c = '-' := by simpa using hhead
          exact absurd hout (by simp [Undashed])

theorem Undashed.replaceAll {cs tail : List Char} (h : Undashed (cs ++ tail)) :
    Undashed (replaceAll idiom cs ++ tail) := by
  induction cs using hidiom.replace_induction with
  | nil => exact h
  | keep c cs hnone ih =>
      obtain ⟨hhead, htail⟩ := List.isChain_cons.1 h
      rw [replaceAll_cons_of_none hnone]
      refine List.isChain_cons.2 ⟨?_, ih htail⟩
      rintro d hd ⟨rfl, rfl⟩
      have hcs := head?_of_replaceAll_append hidiom (undashed_append.1 htail).1 hd
      exact hhead '-' hcs ⟨rfl, rfl⟩
  | replace cs out rest hsome ih =>
      obtain ⟨hcs, -, -⟩ := undashed_append.1 h
      have hrest : Undashed (rest ++ tail) := by
        obtain ⟨phrase, rfl⟩ := hidiom.suffix hsome
        exact h.suffix ⟨phrase, by simp⟩
      obtain ⟨hout, -, hlast⟩ := undashed_append.1 (hidiom.undashed hsome hcs).tail
      rw [replaceAll_of_some hidiom.toConsuming hsome, List.append_assoc]
      refine undashed_append.2 ⟨hout, ih hrest, ?_⟩
      rintro c hc d - ⟨rfl, -⟩
      exact hlast '-' hc '-' rfl ⟨rfl, rfl⟩

end Replacing

structure Passage where
  code : List Char
  comment : List Char

namespace Passage

def text (p : Passage) : List Char :=
  p.code ++ p.comment

/-- The comment is one: it starts with the first two hyphens in a row and goes to the end of its
line at most. -/
structure Sound (p : Passage) : Prop where
  undashed : Undashed (p.code ++ p.comment.take 1)
  dashes : withoutComment p.comment = []
  oneLine : '\n' ∉ p.comment

def expanded (p : Passage) : Passage :=
  ⟨expandIdioms p.code, expandIdioms p.comment⟩

end Passage

theorem withoutComment_eq_nil {cs : List Char} (h : withoutComment cs = []) :
    cs = [] ∨ ∃ rest, cs = '-' :: '-' :: rest := by
  fun_cases withoutComment cs with
  | case1 => exact .inl rfl
  | case2 rest => exact .inr ⟨rest, rfl⟩
  | case3 c cs hdash =>
      rw [withoutComment] at h
      · cases h
      · exact hdash

theorem replaceAll_comment {idiom : Idiom} (hidiom : Cuttable idiom) {cs : List Char}
    (h : withoutComment cs = []) :
    withoutComment (replaceAll idiom cs) = [] ∧ (replaceAll idiom cs).take 1 = cs.take 1 := by
  rcases withoutComment_eq_nil h with rfl | ⟨rest, rfl⟩
  · exact ⟨rfl, rfl⟩
  · rw [replaceAll_cons_of_none (hidiom.dash _), replaceAll_cons_of_none (hidiom.dash _)]
    exact ⟨rfl, rfl⟩

theorem head?_expandIdioms {cs : List Char} (h : cs.head? = some '\n') :
    (expandIdioms cs).head? = some '\n' := by
  refine expand_induction (motive := fun cs => cs.head? = some '\n') ?_ h
  intro idiom hmem cs hcs
  obtain ⟨rest, rfl⟩ := List.head?_eq_some_iff.1 hcs
  rw [replaceAll_cons_of_none ((cuttable_idioms idiom hmem).newline rest)]
  rfl

theorem Passage.Sound.expanded {p : Passage} (h : p.Sound) : p.expanded.Sound := by
  obtain ⟨hcode, hcomment, hline⟩ := h
  have hcomments : withoutComment (expandIdioms p.comment) = [] ∧
      '\n' ∉ expandIdioms p.comment ∧ (expandIdioms p.comment).take 1 = p.comment.take 1 := by
    refine expand_induction (motive := fun cs =>
      withoutComment cs = [] ∧ '\n' ∉ cs ∧ cs.take 1 = p.comment.take 1) ?_ ⟨hcomment, hline, rfl⟩
    rintro idiom hmem cs ⟨hcs, hnewline, htake⟩
    have hidiom := tidy_idioms idiom hmem
    obtain ⟨hcs', htake'⟩ := replaceAll_comment hidiom.toCuttable hcs
    exact ⟨hcs', fun hnew => hnewline (newline_of_mem_replaceAll hidiom hnew), htake'.trans htake⟩
  have hcodes : Undashed (expandIdioms p.code ++ p.comment.take 1) :=
    expand_induction (motive := fun cs => Undashed (cs ++ p.comment.take 1))
      (fun idiom hmem cs hcs => hcs.replaceAll (tidy_idioms idiom hmem)) hcode
  rw [← hcomments.2.2] at hcodes
  exact ⟨hcodes, hcomments.1, hcomments.2.1⟩

theorem map_withoutComment_lines {code comment : List Char}
    (hcode : Undashed (code ++ comment.take 1)) (hdashes : withoutComment comment = [])
    (hline : '\n' ∉ comment) : (lines (code ++ comment)).map withoutComment = lines code := by
  induction code with
  | nil =>
      rw [List.nil_append, lines_eq_singleton hline, List.map_singleton, hdashes]
      rfl
  | cons c code ih =>
      obtain ⟨hhead, htail⟩ := List.isChain_cons.1 hcode
      obtain ⟨line, rest, hlines⟩ : ∃ line rest, lines (code ++ comment) = line :: rest :=
        List.exists_cons_of_ne_nil (pieces_ne_nil '\n' (code ++ comment))
      have hcodes : lines code = withoutComment line :: rest.map withoutComment := by
        rw [← ih htail, hlines, List.map_cons]
      rw [List.cons_append, lines_cons hlines, lines_cons hcodes]
      split
      · rfl
      · -- The next character of the line is the next one of the text.
        have hc : ∀ d ∈ line.head?, ¬ (c = '-' ∧ d = '-') := by
          intro d hd
          exact hhead d ((head?_append_take_one code comment).trans (head?_of_lines hlines hd))
        rw [List.map_cons, withoutComment_cons hc]

/-- A text in passages. All but the first follow a comment, so they start with the end of its
line. -/
structure Sequence (ps : List Passage) : Prop where
  sound : ∀ p ∈ ps, p.Sound
  newline : ∀ p ∈ ps.tail, p.code.head? = some '\n'

theorem Sequence.map_lines {ps : List Passage} (h : Sequence ps) :
    (lines (ps.flatMap Passage.text)).map withoutComment = lines (ps.flatMap Passage.code) := by
  obtain ⟨hsound, hnewline⟩ := h
  induction ps with
  | nil => rfl
  | cons p ps ih =>
      obtain ⟨hundashed, hdashes, hline⟩ := hsound p List.mem_cons_self
      have hp : (lines p.text).map withoutComment = lines p.code :=
        map_withoutComment_lines hundashed hdashes hline
      cases ps with
      | nil => simpa using hp
      | cons q ps =>
          have hrest := ih (fun p hmem => hsound p (List.mem_cons_of_mem _ hmem))
            fun p hmem => hnewline p (List.mem_of_mem_tail hmem)
          obtain ⟨code, hcode⟩ := List.head?_eq_some_iff.1 (hnewline q List.mem_cons_self)
          obtain ⟨more, htext⟩ : ∃ more, (q :: ps).flatMap Passage.text = '\n' :: more :=
            ⟨code ++ q.comment ++ ps.flatMap Passage.text, by simp [Passage.text, hcode]⟩
          obtain ⟨codes, hcodes⟩ : ∃ codes, (q :: ps).flatMap Passage.code = '\n' :: codes :=
            ⟨code ++ ps.flatMap Passage.code, by simp [hcode]⟩
          rw [htext, hcodes, lines_newline, lines_newline, List.map_cons] at hrest
          have hmore := (List.cons.inj hrest).2
          change (lines (p.text ++ (q :: ps).flatMap Passage.text)).map withoutComment =
            lines (p.code ++ (q :: ps).flatMap Passage.code)
          rw [htext, hcodes, lines_append, lines_append, List.map_append, hp, hmore]

theorem Sequence.expanded {ps : List Passage} (h : Sequence ps) :
    Sequence (ps.map Passage.expanded) := by
  constructor
  · intro p hp
    obtain ⟨old, hold, rfl⟩ := List.mem_map.1 hp
    exact (h.sound old hold).expanded
  · intro p hp
    rw [← List.map_tail] at hp
    obtain ⟨old, hold, rfl⟩ := List.mem_map.1 hp
    exact head?_expandIdioms (h.newline old hold)

def parts (ps : List Passage) : List (List Char) :=
  ps.flatMap fun p => [p.code, p.comment]

theorem flatten_parts (ps : List Passage) : (parts ps).flatten = ps.flatMap Passage.text := by
  induction ps with
  | nil => rfl
  | cons p ps ih =>
      rw [List.flatMap_cons, ← ih]
      simp [parts, Passage.text]

theorem map_parts (ps : List Passage) :
    (parts ps).map expandIdioms = parts (ps.map Passage.expanded) := by
  simp only [parts, List.map_flatMap, List.flatMap_map]
  rfl

theorem Sequence.edge_code {ps : List Passage} (h : Sequence ps) {p : Passage}
    (hp : p ∈ ps.tail) : Edge p.code := by
  intro c hc
  rw [h.newline p hp] at hc
  exact .inr (Option.some.inj hc).symm

theorem Sequence.edge_comment {ps : List Passage} (h : Sequence ps) {p : Passage} (hp : p ∈ ps) :
    Edge p.comment := by
  intro c hc
  rcases withoutComment_eq_nil (h.sound p hp).dashes with hnil | ⟨rest, hrest⟩
  · simp [hnil] at hc
  · rw [hrest] at hc
    exact .inl (Option.some.inj hc).symm

theorem Sequence.edges_parts {ps : List Passage} (h : Sequence ps) :
    ∀ part ∈ (parts ps).tail, Edge part := by
  cases ps with
  | nil => simp [parts]
  | cons p ps =>
      intro part hpart
      rcases List.mem_cons.1 hpart with rfl | hpart
      · exact h.edge_comment List.mem_cons_self
      · obtain ⟨q, hq, hpart⟩ := List.mem_flatMap.1 hpart
        rcases List.mem_pair.1 hpart with rfl | rfl
        · exact h.edge_code hq
        · exact h.edge_comment (List.mem_cons_of_mem p hq)

theorem Sequence.edges_code {ps : List Passage} (h : Sequence ps) :
    ∀ part ∈ (ps.map Passage.code).tail, Edge part := by
  intro part hpart
  rw [← List.map_tail] at hpart
  obtain ⟨p, hp, rfl⟩ := List.mem_map.1 hpart
  exact h.edge_code hp

theorem processedLines_of_apart {ps : List Passage} (h : Sequence ps)
    (hapart : Apart idioms (parts ps)) :
    processedLines (ps.flatMap Passage.text) =
      (lines ((ps.map Passage.code).map expandIdioms).flatten).map trim := by
  have hexpand : expandIdioms (ps.flatMap Passage.text) =
      (ps.map Passage.expanded).flatMap Passage.text := by
    rw [← flatten_parts, ← flatten_parts, ← map_parts]
    exact expand_flatten cuttable_idioms h.edges_parts hapart
  have hcode : (ps.map Passage.expanded).flatMap Passage.code =
      ((ps.map Passage.code).map expandIdioms).flatten := by
    simp only [List.flatMap, List.map_map]
    rfl
  rw [processedLines, hexpand, ← hcode, ← h.expanded.map_lines, List.map_map]
  rfl

def prepend (line : List Char) : List Passage → List Passage
  | [] => [⟨line ++ ['\n'], []⟩]
  | p :: ps => ⟨line ++ '\n' :: p.code, p.comment⟩ :: ps

def passages : List (List Char) → List Passage
  | [] => []
  | [line] => [⟨withoutComment line, commentOf line⟩]
  | line :: rest =>
      if commentOf line = [] then prepend (withoutComment line) (passages rest)
      else ⟨withoutComment line, commentOf line⟩ :: prepend [] (passages rest)

theorem text_prepend (line : List Char) (ps : List Passage) :
    (prepend line ps).flatMap Passage.text = line ++ '\n' :: ps.flatMap Passage.text := by
  cases ps <;> simp [prepend, Passage.text]

theorem code_prepend (line : List Char) (ps : List Passage) :
    (prepend line ps).flatMap Passage.code = line ++ '\n' :: ps.flatMap Passage.code := by
  cases ps <;> simp [prepend]

theorem text_passages (ls : List (List Char)) :
    (passages ls).flatMap Passage.text = joined '\n' ls := by
  fun_induction passages ls with
  | case1 => rfl
  | case2 line => simpa [Passage.text, joined] using withoutComment_append_commentOf line
  | case3 line rest hrest hnone ih =>
      have hline := withoutComment_append_commentOf line
      rw [hnone, List.append_nil] at hline
      rw [text_prepend, ih, joined_cons_of_ne_nil hrest, hline]
  | case4 line rest hrest hcomment ih =>
      rw [List.flatMap_cons, text_prepend, ih, joined_cons_of_ne_nil hrest, Passage.text,
        withoutComment_append_commentOf]
      rfl

theorem code_passages (ls : List (List Char)) :
    (passages ls).flatMap Passage.code = joined '\n' (ls.map withoutComment) := by
  fun_induction passages ls with
  | case1 => rfl
  | case2 line => simp [joined]
  | case3 line rest hrest hnone ih =>
      rw [code_prepend, ih, List.map_cons, joined_cons_of_ne_nil (mt List.map_eq_nil_iff.1 hrest)]
  | case4 line rest hrest hcomment ih =>
      rw [List.flatMap_cons, code_prepend, ih, List.map_cons,
        joined_cons_of_ne_nil (mt List.map_eq_nil_iff.1 hrest)]
      rfl

theorem Passage.sound_of_line {line : List Char} (h : '\n' ∉ line) :
    Sound ⟨withoutComment line, commentOf line⟩ := by
  refine ⟨undashed_withoutComment line, withoutComment_commentOf line, fun hmem => h ?_⟩
  rw [← withoutComment_append_commentOf line]
  exact List.mem_append_right _ hmem

theorem Undashed.prepend {line code : List Char} (hline : Undashed line) (hcode : Undashed code) :
    Undashed (line ++ '\n' :: code) := by
  refine undashed_append.2 ⟨hline, List.isChain_cons.2 ⟨by simp, hcode⟩, ?_⟩
  rintro c - d hd ⟨-, rfl⟩
  cases hd

theorem Sequence.prepend {ps : List Passage} (h : Sequence ps) {line : List Char}
    (hline : Undashed line) : Sequence (prepend line ps) := by
  cases ps with
  | nil =>
      refine ⟨?_, by simp [Script.prepend]⟩
      intro p hp
      obtain rfl := List.mem_singleton.1 hp
      refine ⟨?_, rfl, List.not_mem_nil⟩
      simpa using hline.prepend .nil
  | cons p ps =>
      refine ⟨?_, h.newline⟩
      intro q hq
      rcases List.mem_cons.1 hq with rfl | hq
      · obtain ⟨hundashed, hdashes, hone⟩ := h.sound p List.mem_cons_self
        refine ⟨?_, hdashes, hone⟩
        simpa using hline.prepend hundashed
      · exact h.sound q (List.mem_cons_of_mem p hq)

theorem Sequence.cons {ps : List Passage} (h : Sequence ps) {p : Passage} (hp : p.Sound) :
    Sequence (p :: Script.prepend [] ps) := by
  have hrest : Sequence (Script.prepend [] ps) := h.prepend .nil
  constructor
  · intro q hq
    rcases List.mem_cons.1 hq with rfl | hq
    · exact hp
    · exact hrest.sound q hq
  · intro q hq
    cases ps with
    | nil =>
        obtain rfl := List.mem_singleton.1 hq
        rfl
    | cons r ps =>
        rcases List.mem_cons.1 hq with rfl | hq
        · rfl
        · exact h.newline q hq

theorem sequence_passages {ls : List (List Char)} (h : ∀ line ∈ ls, '\n' ∉ line) :
    Sequence (passages ls) := by
  fun_induction passages ls with
  | case1 => exact ⟨by simp, by simp⟩
  | case2 line =>
      refine ⟨?_, by simp⟩
      intro p hp
      rw [List.mem_singleton.1 hp]
      exact Passage.sound_of_line (h line List.mem_cons_self)
  | case3 line rest hrest hnone ih =>
      have hsequence := ih fun line hmem => h line (List.mem_cons_of_mem _ hmem)
      exact hsequence.prepend (undashed_append.1 (undashed_withoutComment line)).1
  | case4 line rest hrest hcomment ih =>
      have hsequence := ih fun line hmem => h line (List.mem_cons_of_mem _ hmem)
      exact hsequence.cons (Passage.sound_of_line (h line List.mem_cons_self))

def hasComment (line : List Char) : Bool :=
  !(commentOf line).isEmpty

theorem hasComment_iff {line : List Char} : hasComment line = true ↔ commentOf line ≠ [] := by
  simp [hasComment]

theorem map_code_prepend {ps qs : List Passage}
    (h : ps.map Passage.code = qs.map Passage.code) (line : List Char) :
    (prepend line ps).map Passage.code = (prepend line qs).map Passage.code := by
  cases ps with
  | nil =>
      obtain rfl := List.map_eq_nil_iff.1 h.symm
      rfl
  | cons p ps =>
      obtain ⟨q, qs, rfl, hq, hqs⟩ := List.map_eq_cons_iff.1 h.symm
      simp [prepend, hq, hqs]

theorem passages_cons {line : List Char} {rest : List (List Char)} (h : rest ≠ []) :
    passages (line :: rest) =
      if commentOf line = [] then prepend (withoutComment line) (passages rest)
      else ⟨withoutComment line, commentOf line⟩ :: prepend [] (passages rest) := by
  rw [passages]
  exact h

theorem ne_nil_of_map_eq {ls ms : List (List Char)}
    (h : ls.map withoutComment = ms.map withoutComment) (hne : ls ≠ []) : ms ≠ [] := by
  rintro rfl
  exact hne (List.map_eq_nil_iff.1 h)

theorem map_code_passages {ls ms : List (List Char)}
    (hcode : ls.map withoutComment = ms.map withoutComment)
    (hplaces : ls.map hasComment = ms.map hasComment) :
    (passages ls).map Passage.code = (passages ms).map Passage.code := by
  fun_induction passages ls generalizing ms with
  | case1 =>
      obtain rfl := List.map_eq_nil_iff.1 hcode.symm
      rfl
  | case2 line =>
      obtain ⟨line', ms, rfl, hline, hms⟩ := List.map_eq_cons_iff.1 hcode.symm
      obtain rfl := List.map_eq_nil_iff.1 hms
      simp [passages, hline]
  | case3 line rest hrest hnone ih =>
      obtain ⟨line', ms, rfl, hline, hms⟩ := List.map_eq_cons_iff.1 hcode.symm
      obtain ⟨hplace, hplaces⟩ := List.cons.inj hplaces
      have hnone' : commentOf line' = [] := by simpa [hasComment, hnone] using hplace
      rw [passages_cons (ne_nil_of_map_eq hms.symm hrest), if_pos hnone', hline]
      exact map_code_prepend (ih hms.symm hplaces) _
  | case4 line rest hrest hcomment ih =>
      obtain ⟨line', ms, rfl, hline, hms⟩ := List.map_eq_cons_iff.1 hcode.symm
      obtain ⟨hplace, hplaces⟩ := List.cons.inj hplaces
      have hcomment' : commentOf line' ≠ [] :=
        hasComment_iff.1 (hplace.symm.trans (hasComment_iff.2 hcomment))
      rw [passages_cons (ne_nil_of_map_eq hms.symm hrest), if_neg hcomment', List.map_cons,
        List.map_cons, map_code_prepend (ih hms.symm hplaces), hline]

/-- No phrase reaches from code into a comment, or from a comment into code, at any of the idioms. -/
def CommentsApart (source : List Char) : Prop :=
  Apart idioms (parts (passages (lines source)))

/-- No phrase of the code alone goes over a place where a comment stands. -/
def CodeApart (source : List Char) : Prop :=
  Apart idioms ((passages (lines source)).map Passage.code)

instance (source : List Char) : Decidable (CommentsApart source) := decidableApart _ _

instance (source : List Char) : Decidable (CodeApart source) := decidableApart _ _

theorem sequence_lines (source : List Char) : Sequence (passages (lines source)) :=
  sequence_passages fun _ hline => not_mem_of_mem_pieces hline

theorem processedLines_of_commentsApart {source : List Char} (h : CommentsApart source) :
    processedLines source =
      (lines (((passages (lines source)).map Passage.code).map expandIdioms).flatten).map trim := by
  have hlines := processedLines_of_apart (sequence_lines source) h
  rwa [text_passages, lines, joined_pieces] at hlines

theorem processedLines_of_codeApart {source : List Char} (h : CommentsApart source)
    (hcode : CodeApart source) :
    processedLines source =
      (lines (expandIdioms (joined '\n' ((lines source).map withoutComment)))).map trim := by
  have hexpand := expand_flatten cuttable_idioms (sequence_lines source).edges_code hcode
  rw [processedLines_of_commentsApart h, ← code_passages, List.flatMap]
  exact congrArg (fun text => (lines text).map trim) hexpand.symm

/-- Comments do not change a script, as far as no phrase has a part in them. For two sources whose
lines agree up to their comments, and in which no phrase reaches over an end of a comment, the
scripts are the same if the comments stand in the same lines; and wherever they stand, if no phrase
of the code goes over such a place. -/
theorem toJavaScript_ignores_comments (a b : String) (ha : Verbatim.body? a.toList = none)
    (hb : Verbatim.body? b.toList = none)
    (hlines : (lines a.toList).map withoutComment = (lines b.toList).map withoutComment)
    (hapart : CommentsApart a.toList) (hapart' : CommentsApart b.toList) :
    ((lines a.toList).map hasComment = (lines b.toList).map hasComment →
      toJavaScript a = toJavaScript b) ∧
    (CodeApart a.toList → CodeApart b.toList → toJavaScript a = toJavaScript b) := by
  rw [toJavaScript_of_none ha, toJavaScript_of_none hb]
  refine ⟨fun hplaces => ?_, fun hcode hcode' => ?_⟩
  · rw [processedLines_of_commentsApart hapart, processedLines_of_commentsApart hapart',
      map_code_passages hlines hplaces]
  · rw [processedLines_of_codeApart hapart hcode, processedLines_of_codeApart hapart' hcode', hlines]

def commentedLoop : String :=
  "x -- for i from 1 to 2\nfor j\nfrom 1 to 3 -- get element by id"

theorem toJavaScript_ignores_comments_loop :
    CommentsApart commentedLoop.toList ∧ CodeApart commentedLoop.toList ∧
      toJavaScript commentedLoop = toJavaScript "x \nfor j\nfrom 1 to 3 " := by
  have hapart : CommentsApart commentedLoop.toList := by decide +kernel
  have hcode : CodeApart commentedLoop.toList := by decide +kernel
  refine ⟨hapart, hcode, ?_⟩
  exact (toJavaScript_ignores_comments commentedLoop "x \nfor j\nfrom 1 to 3 " (by decide +kernel)
    (by decide +kernel) (by decide +kernel) hapart (by decide +kernel)).2 hcode (by decide +kernel)

/-- A comment that ends in the start of a phrase: the next line goes with it. -/
theorem toJavaScript_comment_takes_line :
    (lines "x -- for\ni from 1 to 3".toList).map withoutComment =
        (lines "x -- \ni from 1 to 3".toList).map withoutComment ∧
      toJavaScript "x -- for\ni from 1 to 3" = "x;\n" ∧
      toJavaScript "x -- \ni from 1 to 3" = "x;\ni from 1 to 3;\n" := by
  decide +kernel

end EnglishPages.Script
