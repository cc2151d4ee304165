import EnglishPages.Html.Markup
import EnglishPages.Text.Blank

/-!
Reading markup back. A text is cut at its angle brackets into texts and tags, and the brackets must
open and close by turns. Lines of markup are read back as the tags that they were made of: what is
escaped, and what has no brackets of its own, can neither start a tag nor end one.

Tags are nested if a stack of names can follow them.
-/

namespace EnglishPages.Html

def isAngleFree (cs : List Char) : Bool :=
  cs.all fun c => c != '<' && c != '>'

theorem isAngleFree_append (cs ds : List Char) :
    isAngleFree (cs ++ ds) = (isAngleFree cs && isAngleFree ds) :=
  List.all_append

theorem isAngleFree_flatMap {α : Type} {f : α → List Char} {xs : List α}
    (h : ∀ x ∈ xs, isAngleFree (f x) = true) : isAngleFree (xs.flatMap f) = true := by
  refine List.all_eq_true.2 fun c hc => ?_
  obtain ⟨x, hx, hcx⟩ := List.mem_flatMap.1 hc
  exact List.all_eq_true.1 (h x hx) c hcx

theorem isAngleFree_escape (text : String) : isAngleFree (escape text).toList = true := by
  refine List.all_eq_true.2 fun c hc => ?_
  have hlt : c ≠ '<' := by
    rintro rfl
    exact not_mem_escape (by decide) text hc
  have hgt : c ≠ '>' := by
    rintro rfl
    exact not_mem_escape (by decide) text hc
  simp [hlt, hgt]

theorem isAngleFree_of_blank {cs : List Char} (h : Text.isBlankText cs = true) :
    isAngleFree cs = true := by
  refine List.all_eq_true.2 fun c hc => ?_
  have hblank := List.all_eq_true.1 h c hc
  have hlt : c ≠ '<' := by
    rintro rfl
    cases hblank
  have hgt : c ≠ '>' := by
    rintro rfl
    cases hblank
  simp [hlt, hgt]

inductive Segment where
  | text (content : List Char)
  | tag (content : List Char)
  deriving DecidableEq, Repr

namespace Segment

def content : Segment → List Char
  | text cs => cs
  | tag cs => cs

def tag? : Segment → Option (List Char)
  | text _ => none
  | tag cs => some cs

def source : Segment → List Char
  | text cs => cs
  | tag cs => '<' :: cs ++ ['>']

def consText (c : Char) : List Segment → List Segment
  | text cs :: ss => text (c :: cs) :: ss
  | ss => text [c] :: ss

def consTag (c : Char) : List Segment → List Segment
  | tag cs :: ss => tag (c :: cs) :: ss
  | ss => tag [c] :: ss

end Segment

def segmentsFrom? : Bool → List Char → Option (List Segment)
  | false, [] => some []
  | true, [] => none
  | false, c :: cs =>
      if c = '<' then segmentsFrom? true cs
      else if c = '>' then none
      else (segmentsFrom? false cs).map (Segment.consText c)
  | true, c :: cs =>
      if c = '>' then (segmentsFrom? false cs).map (.tag [] :: ·)
      else if c = '<' then none
      else (segmentsFrom? true cs).map (Segment.consTag c)

/-- The texts and tags of a text, cut at angle brackets. There are none if a bracket does not open
a tag outside tags or close the tag that is open. -/
def segments? (cs : List Char) : Option (List Segment) :=
  segmentsFrom? false cs

namespace Segment

theorem filterMap_tag?_foldr (cs : List Char) (ss : List Segment) :
    (cs.foldr consText ss).filterMap tag? = ss.filterMap tag? := by
  induction cs with
  | nil => rfl
  | cons c cs ih =>
      rw [List.foldr_cons, ← ih]
      cases cs.foldr consText ss with
      | nil => rfl
      | cons s us => cases s <;> rfl

theorem isAngleFree_consText {c : Char} (hc : isAngleFree [c] = true) {ss : List Segment}
    (h : ∀ s ∈ ss, isAngleFree s.content = true) :
    ∀ s ∈ consText c ss, isAngleFree s.content = true := by
  cases ss with
  | nil => simpa [consText, content] using hc
  | cons s ss =>
      obtain ⟨hs, hss⟩ := List.forall_mem_cons.1 h
      cases s with
      | text cs =>
          refine List.forall_mem_cons.2 ⟨?_, hss⟩
          exact (isAngleFree_append [c] cs).trans (Bool.and_eq_true_iff.2 ⟨hc, hs⟩)
      | tag cs => exact List.forall_mem_cons.2 ⟨hc, h⟩

theorem isAngleFree_foldr {cs : List Char} (hcs : isAngleFree cs = true) {ss : List Segment}
    (h : ∀ s ∈ ss, isAngleFree s.content = true) :
    ∀ s ∈ cs.foldr consText ss, isAngleFree s.content = true := by
  induction cs with
  | nil => exact h
  | cons c cs ih =>
      rw [← List.singleton_append, isAngleFree_append] at hcs
      obtain ⟨hc, hcs⟩ := Bool.and_eq_true_iff.1 hcs
      exact isAngleFree_consText hc (ih hcs)

end Segment

theorem segmentsFrom?_text {cs : List Char} (h : isAngleFree cs = true) (rest : List Char) :
    segmentsFrom? false (cs ++ rest) =
      (segmentsFrom? false rest).map fun ss => cs.foldr Segment.consText ss := by
  induction cs with
  | nil => simp
  | cons c cs ih =>
      obtain ⟨hc, hcs⟩ := Bool.and_eq_true_iff.1 h
      obtain ⟨hlt, hgt⟩ : c ≠ '<' ∧ c ≠ '>' := by simpa using hc
      simp only [List.cons_append, segmentsFrom?, if_neg hlt, if_neg hgt, ih hcs, Option.map_map]
      rfl

theorem segmentsFrom?_tag {cs : List Char} (h : isAngleFree cs = true) (rest : List Char) :
    segmentsFrom? true (cs ++ '>' :: rest) = (segmentsFrom? false rest).map (.tag cs :: ·) := by
  induction cs with
  | nil => simp [segmentsFrom?]
  | cons c cs ih =>
      obtain ⟨hc, hcs⟩ := Bool.and_eq_true_iff.1 h
      obtain ⟨hlt, hgt⟩ : c ≠ '<' ∧ c ≠ '>' := by simpa using hc
      simp only [List.cons_append, segmentsFrom?, if_neg hlt, if_neg hgt, ih hcs, Option.map_map]
      rfl

theorem segments?_flatMap_source {ss : List Segment}
    (h : ∀ s ∈ ss, isAngleFree s.content = true) :
    ∃ us, segments? (ss.flatMap Segment.source) = some us ∧
      us.filterMap Segment.tag? = ss.filterMap Segment.tag? ∧
      ∀ u ∈ us, isAngleFree u.content = true := by
  induction ss with
  | nil => exact ⟨[], rfl, rfl, by simp⟩
  | cons s ss ih =>
      obtain ⟨hs, hss⟩ := List.forall_mem_cons.1 h
      obtain ⟨us, hus, htags, hfree⟩ := ih hss
      rw [segments?] at hus
      cases s with
      | tag cs =>
          have hcs : isAngleFree cs = true := hs
          refine ⟨.tag cs :: us, ?_, congrArg (cs :: ·) htags, List.forall_mem_cons.2 ⟨hs, hfree⟩⟩
          have hcut := segmentsFrom?_tag hcs (ss.flatMap Segment.source)
          simpa [segments?, Segment.source, segmentsFrom?, hus] using hcut
      | text cs =>
          have hcs : isAngleFree cs = true := hs
          refine ⟨cs.foldr Segment.consText us, ?_, ?_, Segment.isAngleFree_foldr hcs hfree⟩
          · rw [segments?, List.flatMap_cons, Segment.source, segmentsFrom?_text hcs, hus]
            rfl
          · rw [Segment.filterMap_tag?_foldr, List.filterMap_cons_none rfl, htags]

inductive Tag where
  | doctype
  | opening (name : String) (attributes : List (String × String))
  | closing (name : String)
  deriving DecidableEq, Repr

namespace Tag

def text : Tag → String
  | doctype => "!DOCTYPE html"
  | opening name attributes =>
      name ++ String.join (attributes.map fun a => " " ++ a.1 ++ "=\"" ++ a.2 ++ "\"")
  | closing name => "/" ++ name

def attributes : Tag → List (String × String)
  | opening _ attributes => attributes
  | _ => []

def opens (name : String) : Tag → Bool
  | opening n _ => n == name
  | _ => false

end Tag

/-- A text that is made of the given tags, in this order, and of texts without brackets. -/
def Reads (cs : List Char) (tags : List Tag) : Prop :=
  ∃ ss : List Segment, cs = ss.flatMap Segment.source ∧
    (∀ s ∈ ss, isAngleFree s.content = true) ∧
    ss.filterMap Segment.tag? = tags.map fun t => t.text.toList

namespace Reads

variable {cs ds : List Char} {tags others : List Tag}

theorem text (h : isAngleFree cs = true) : Reads cs [] :=
  ⟨[.text cs], by simp [Segment.source], by simpa [Segment.content] using h, rfl⟩

theorem tag {t : Tag} (h : isAngleFree t.text.toList = true) :
    Reads ('<' :: t.text.toList ++ ['>']) [t] :=
  ⟨[.tag t.text.toList], by simp [Segment.source], by simpa [Segment.content] using h, rfl⟩

theorem append (h : Reads cs tags) (h' : Reads ds others) : Reads (cs ++ ds) (tags ++ others) := by
  obtain ⟨ss, hsource, hfree, htags⟩ := h
  obtain ⟨us, hsource', hfree', htags'⟩ := h'
  refine ⟨ss ++ us, ?_, ?_, ?_⟩
  · rw [hsource, hsource', List.flatMap_append]
  · exact List.forall_mem_append.2 ⟨hfree, hfree'⟩
  · rw [List.filterMap_append, htags, htags', List.map_append]

theorem segments (h : Reads cs tags) :
    ∃ us, segments? cs = some us ∧
      us.filterMap Segment.tag? = (tags.map fun t => t.text.toList) ∧
      ∀ u ∈ us, isAngleFree u.content = true := by
  obtain ⟨ss, hsource, hfree, htags⟩ := h
  obtain ⟨us, hus, hsame, hfree'⟩ := segments?_flatMap_source hfree
  exact ⟨us, hsource ▸ hus, hsame.trans htags, hfree'⟩

end Reads

namespace Markup

def tag? : Markup → Option Tag
  | doctype => some .doctype
  | opening name attributes => some (.opening name (attributes.map fun a => (a.1, escape a.2)))
  | closing name => some (.closing name)
  | text _ => none
  | verbatim _ => none

def isPlain : Markup → Bool
  | doctype => true
  | opening name attributes =>
      isAngleFree name.toList && attributes.all fun a => isAngleFree a.1.toList
  | closing name => isAngleFree name.toList
  | text _ => true
  | verbatim content => isAngleFree content.toList

theorem reads_render {m : Markup} (h : m.isPlain = true) :
    Reads m.render.toList m.tag?.toList := by
  cases m with
  | doctype => exact Reads.tag (t := .doctype) (by decide)
  | closing name =>
      have hfree : isAngleFree (Tag.closing name).text.toList = true := by
        rw [Tag.text, String.toList_append, isAngleFree_append]
        exact Bool.and_eq_true_iff.2 ⟨by decide, h⟩
      have hread := Reads.tag hfree
      simpa [render, Tag.text, tag?] using hread
  | text content => exact Reads.text (isAngleFree_escape content)
  | verbatim content => exact Reads.text h
  | opening name attributes =>
      obtain ⟨hname, hattributes⟩ := Bool.and_eq_true_iff.1 h
      have hfree : isAngleFree
          (Tag.opening name (attributes.map fun a => (a.1, escape a.2))).text.toList = true := by
        rw [Tag.text, String.toList_append, isAngleFree_append, String.toList_join]
        refine Bool.and_eq_true_iff.2 ⟨hname, isAngleFree_flatMap fun s hs => ?_⟩
        obtain ⟨b, hb, rfl⟩ := List.mem_map.1 hs
        obtain ⟨a, ha, rfl⟩ := List.mem_map.1 hb
        have hvalue := isAngleFree_escape a.2
        have hkey := List.all_eq_true.1 hattributes a ha
        simp only [String.toList_append, isAngleFree_append, hvalue, hkey]
        decide
      have hread := Reads.tag hfree
      simpa [render, attributeText, Tag.text, tag?, Function.comp_def] using hread

end Markup

namespace Line

def tags (l : Line) : List Tag :=
  l.pieces.filterMap Markup.tag?

def isPlain (l : Line) : Bool :=
  l.pieces.all Markup.isPlain

theorem reads_pieces {ms : List Markup} (h : ms.all Markup.isPlain = true) :
    Reads (String.join (ms.map Markup.render)).toList (ms.filterMap Markup.tag?) := by
  induction ms with
  | nil => exact Reads.text rfl
  | cons m ms ih =>
      obtain ⟨hm, hms⟩ := Bool.and_eq_true_iff.1 h
      have hread := (Markup.reads_render hm).append (ih hms)
      rw [List.map_cons, String.join_cons, String.toList_append]
      cases htag : m.tag? with
      | none => simpa [htag] using hread
      | some t => simpa [htag] using hread

theorem reads_render {unit : String} (hunit : isAngleFree unit.toList = true) {l : Line}
    (h : l.isPlain = true) : Reads (l.render unit).toList l.tags := by
  have hpieces := reads_pieces h
  simp only [render]
  split
  · next hempty =>
      rw [String.isEmpty_iff.1 hempty] at hpieces
      exact hpieces
  · have hindent : isAngleFree (String.join (List.replicate l.depth unit)).toList = true := by
      rw [String.toList_join]
      refine isAngleFree_flatMap fun s hs => ?_
      rw [List.eq_of_mem_replicate hs]
      exact hunit
    rw [String.toList_append]
    exact (Reads.text hindent).append hpieces

end Line

theorem reads_renderLines {unit : String} (hunit : isAngleFree unit.toList = true)
    {ls : List Line} (h : ∀ l ∈ ls, l.isPlain = true) :
    Reads (renderLines unit ls).toList (ls.flatMap Line.tags) := by
  induction ls with
  | nil => exact Reads.text rfl
  | cons l ls ih =>
      obtain ⟨hl, hls⟩ := List.forall_mem_cons.1 h
      have hline := Line.reads_render hunit hl
      cases ls with
      | nil => simpa [renderLines] using hline
      | cons m ls =>
          have hrest := ih hls
          simp only [renderLines, List.map_cons] at hrest ⊢
          rw [String.intercalate_cons_cons, String.toList_append, String.toList_append,
            List.flatMap_cons]
          have hnewline : Reads "\n".toList [] := Reads.text (by decide)
          simpa using (hline.append hnewline).append hrest

def voidTags : List String := ["meta", "link", "img", "input"]

/-- The names of the elements that are open after some tags, innermost first. -/
def openAfter : List String → List Tag → Option (List String)
  | stack, [] => some stack
  | stack, .doctype :: tags => openAfter stack tags
  | stack, .opening name _ :: tags =>
      if name ∈ voidTags then openAfter stack tags else openAfter (name :: stack) tags
  | [], .closing _ :: _ => none
  | top :: stack, .closing name :: tags => if name = top then openAfter stack tags else none

/-- Tags that close what they open and nothing else. -/
def IsNested (tags : List Tag) : Prop :=
  ∀ stack, openAfter stack tags = some stack

theorem openAfter_append (stack : List String) (tags others : List Tag) :
    openAfter stack (tags ++ others) = (openAfter stack tags).bind (openAfter · others) := by
  fun_induction openAfter stack tags with
  | case1 stack => rfl
  | case2 stack tags ih => exact ih
  | case3 stack name attributes tags hvoid ih =>
      rw [List.cons_append, openAfter, if_pos hvoid]
      exact ih
  | case4 stack name attributes tags hvoid ih =>
      rw [List.cons_append, openAfter, if_neg hvoid]
      exact ih
  | case5 name tags => rfl
  | case6 top stack tags ih =>
      rw [List.cons_append, openAfter, if_pos rfl]
      exact ih
  | case7 top stack name tags hname =>
      rw [List.cons_append, openAfter, if_neg hname]
      rfl

namespace IsNested

theorem nil : IsNested [] := fun _ => rfl

theorem append {tags others : List Tag} (h : IsNested tags) (h' : IsNested others) :
    IsNested (tags ++ others) := by
  intro stack
  rw [openAfter_append, h stack]
  exact h' stack

theorem flatMap {α : Type} {f : α → List Tag} {xs : List α} (h : ∀ x ∈ xs, IsNested (f x)) :
    IsNested (xs.flatMap f) := by
  induction xs with
  | nil => exact nil
  | cons x xs ih =>
      obtain ⟨hx, hxs⟩ := List.forall_mem_cons.1 h
      exact hx.append (ih hxs)

theorem doctype : IsNested [.doctype] := fun _ => rfl

theorem void {name : String} (h : name ∈ voidTags) (attributes : List (String × String)) :
    IsNested [.opening name attributes] := by
  intro stack
  rw [openAfter, if_pos h]
  rfl

theorem enclosed {name : String} (h : name ∉ voidTags) (attributes : List (String × String))
    {tags : List Tag} (htags : IsNested tags) :
    IsNested (.opening name attributes :: tags ++ [.closing name]) := by
  intro stack
  rw [List.cons_append, openAfter, if_neg h, openAfter_append, htags (name :: stack)]
  simp [openAfter]

end IsNested

end EnglishPages.Html
