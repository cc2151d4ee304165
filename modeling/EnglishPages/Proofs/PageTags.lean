import EnglishPages.Proofs.MarkupTags
import EnglishPages.Proofs.NormalForm

/-!
The tags of a page. They are listed here from the document alone: the frame of the page, the tags
of each import of the head, and those of each leaf of the body, in the order of the document. The
text of the page, cut at its angle brackets, gives back this list, so no title, content, word, path
or type can add a tag to it, end one, or leave one open.

Two things are written as they are: a `div` whose content is markup already, and code that is
inlined. A page that has brackets from neither is meant throughout.
-/

namespace EnglishPages.Html

open Node

def enclosed (name : String) (attributes : List (String × String)) (tags : List Tag) : List Tag :=
  .opening name attributes :: tags ++ [.closing name]

def written (attributes : List (String × String)) : List (String × String) :=
  attributes.map fun a => (a.1, escape a.2)

def elementTags (e : Element) : List Tag :=
  let extra := written (dataAttributes e.attributes)
  match e.kind with
  | .heading => enclosed "h1" extra []
  | .paragraph => enclosed "p" extra []
  | .button => enclosed "button" extra []
  | .link => enclosed "a" (("href", "#") :: extra) []
  | .label => enclosed "label" extra []
  | .image => [.opening "img" (("src", escape e.content) :: ("alt", "Image") :: extra)]
  | .input => [.opening "input" (("type", "text") :: extra)]
  | .div => enclosed "div" extra []
  | kind => kind.plainTag?.elim [] fun name => enclosed name extra []

def scriptTags (kind : ScriptKind) (attributes : List String) : List Tag :=
  if kind = .cstyle then enclosed "style" [] []
  else if attributes.contains "ts" then enclosed "script" [("type", "module")] []
  else enclosed "script" [] []

def leafTags : Node → List Tag
  | .title _ _ => enclosed "title" [] []
  | .script kind attributes _ => scriptTags kind attributes
  | .element e => elementTags e
  | _ => []

def inlinedCode? (i : Import) : Option String :=
  if i.path.isSome && (inlineDialect? i).isSome then i.compiled else none

def referenceTags (type path : String) : List Tag :=
  let hasType (word : String) : Bool := occursIn word.toList type.toList
  let hasEnd (ending : String) : Bool := ending.toList.isSuffixOf path.toList
  if hasType "js" then enclosed "script" [("src", escape path)] []
  else if hasType "ts" then enclosed "script" [("type", "module"), ("src", escape path)] []
  else if hasType "css" || hasType "ceng" || hasEnd ".css" || hasEnd ".ceng" then
    [.opening "link" [("rel", "stylesheet"), ("href", escape path)]]
  else enclosed "script" [("src", escape path)] []

def importTags (i : Import) : List Tag :=
  match i.path, i.compiled, inlineDialect? i with
  | none, _, _ => []
  | some _, some _, some d => enclosed (inlineTag d) [] []
  | some path, _, _ => referenceTags (i.type.getD "") path

def headTags (d : Document) : List Tag :=
  [.opening "meta" [("charset", "UTF-8")],
   .opening "meta" [("name", "viewport"), ("content", "width=device-width, initial-scale=1.0")]] ++
    enclosed "title" [] [] ++ (headImports d.nodes).flatMap importTags

def bodyTags (d : Document) : List Tag :=
  (bodyLeavesOf d.nodes).flatMap leafTags

def pageTags (d : Document) : List Tag :=
  .doctype :: enclosed "html" []
    (enclosed "head" [] (headTags d) ++ enclosed "body" [] (bodyTags d))

theorem tags_divContent (depth : Nat) (content : String) :
    (divContent depth content).flatMap Line.tags = [] := by
  unfold divContent
  split
  · rfl
  split
  · rw [List.flatMap_map]
    exact List.flatMap_eq_nil_iff.2 fun l _ => rfl
  · rfl

theorem tags_elementLines (depth : Nat) (e : Element) :
    (elementLines depth e).flatMap Line.tags = elementTags e := by
  obtain ⟨kind, content, attributes, span⟩ := e
  have hhref : escape "#" = "#" := by decide
  have halt : escape "Image" = "Image" := by decide
  have htype : escape "text" = "text" := by decide
  let extra := written (dataAttributes attributes)
  cases kind with
  | link => exact congrArg (fun v => enclosed "a" (("href", v) :: extra) []) hhref
  | image =>
      exact congrArg
        (fun v => [Tag.opening "img" (("src", escape content) :: ("alt", v) :: extra)]) halt
  | input => exact congrArg (fun v => [Tag.opening "input" (("type", v) :: extra)]) htype
  | div =>
      simp only [elementLines, elementTags, List.flatMap_append, List.flatMap_cons,
        tags_divContent]
      rfl
  | _ => rfl

theorem tags_scriptLines (depth : Nat) (kind : ScriptKind) (attributes : List String) :
    (scriptLines depth kind attributes).flatMap Line.tags = scriptTags kind attributes := by
  have hmodule : escape "module" = "module" := by decide
  unfold scriptLines scriptTags
  split
  · rfl
  split
  · exact congrArg (fun v => enclosed "script" [("type", v)] []) hmodule
  · rfl

theorem tags_nodeLines (depth : Nat) {n : Node} (h : n.isBodyLeaf = true) :
    (nodeLines depth n).flatMap Line.tags = leafTags n := by
  cases n with
  | title content span => rfl
  | script kind attributes span => exact tags_scriptLines depth kind attributes
  | element e => exact tags_elementLines depth e
  | page | function | importing => cases h

theorem tags_inlined (depth : Nat) (tag : String) (code : List String) :
    (inlined depth tag code).flatMap Line.tags = enclosed tag [] [] := by
  have hcode : (code.map fun l => (⟨depth + 1, [.verbatim l]⟩ : Line)).flatMap Line.tags = [] := by
    rw [List.flatMap_map]
    exact List.flatMap_eq_nil_iff.2 fun l _ => rfl
  rw [inlined, List.cons_append, List.flatMap_cons, List.flatMap_append, hcode]
  rfl

theorem tags_reference (depth : Nat) (type path : String) :
    [(⟨depth, reference type path⟩ : Line)].flatMap Line.tags = referenceTags type path := by
  have hmodule : escape "module" = "module" := by decide
  have hsheet : escape "stylesheet" = "stylesheet" := by decide
  rw [List.flatMap_singleton, Line.tags]
  simp only [reference, referenceTags]
  split
  · rfl
  split
  · exact congrArg (fun v => enclosed "script" [("type", v), ("src", escape path)] []) hmodule
  split
  · exact congrArg (fun v => [Tag.opening "link" [("rel", v), ("href", escape path)]]) hsheet
  · rfl

theorem tags_importLines (depth : Nat) (i : Import) :
    (importLines depth i).flatMap Line.tags = importTags i := by
  obtain ⟨type, path, compiled, span⟩ := i
  cases path with
  | none => rfl
  | some path =>
      cases compiled with
      | none => exact tags_reference depth (type.getD "") path
      | some code =>
          cases hdialect : inlineDialect? ⟨type, some path, some code, span⟩ with
          | none =>
              simp only [importLines, importTags, hdialect]
              exact tags_reference depth (type.getD "") path
          | some d =>
              simp only [importLines, importTags, hdialect]
              exact tags_inlined depth (inlineTag d) (codeLines code)

theorem tags_pageLines (layout : Layout) (d : Document) :
    (pageLines layout d).flatMap Line.tags = pageTags d := by
  have hbody : (nodesLines 2 d.nodes).flatMap Line.tags = bodyTags d := by
    rw [nodesLines_bodyLeavesOf, List.flatMap_assoc]
    exact congrArg List.flatten
      (List.map_congr_left fun n hn => tags_nodeLines 2 (isBodyLeaf_of_mem_list hn))
  have himports : ((headImports d.nodes).flatMap (importLines 2)).flatMap Line.tags =
      (headImports d.nodes).flatMap importTags := by
    rw [List.flatMap_assoc]
    exact congrArg List.flatten (List.map_congr_left fun i _ => tags_importLines 2 i)
  have hcharset : escape "UTF-8" = "UTF-8" := by decide
  have hviewport : escape "viewport" = "viewport" := by decide
  have hwidth : escape "width=device-width, initial-scale=1.0" =
      "width=device-width, initial-scale=1.0" := by decide
  simp only [pageLines, headLines, List.flatMap_append, hbody, himports]
  simp [titleLine, pageTags, headTags, enclosed, Line.tags, Markup.tag?, List.filterMap_cons,
    hcharset, hviewport, hwidth]

def tagNames : List String :=
  ["html", "head", "meta", "title", "body", "script", "style", "link",
   "h1", "p", "button", "a", "label", "img", "input", "div", "span", "section", "article", "nav",
   "footer", "header", "code", "form", "textarea", "select", "option", "table", "tr", "td", "ul",
   "li"]

def attributeNames : List String :=
  ["charset", "name", "content", "src", "type", "rel", "href", "alt", "class", "data-with"]

def HasOwnNames (attributes : List (String × String)) : Prop :=
  ∀ a ∈ attributes, a.1 ∈ attributeNames

def Markup.IsOwn : Markup → Prop
  | .doctype => True
  | .opening name attributes => name ∈ tagNames ∧ HasOwnNames attributes
  | .closing name => name ∈ tagNames
  | .text _ => True
  | .verbatim content => isAngleFree content.toList = true

def Line.IsOwn (l : Line) : Prop :=
  ∀ m ∈ l.pieces, m.IsOwn

theorem isAngleFree_of_mem_tagNames {name : String} (h : name ∈ tagNames) :
    isAngleFree name.toList = true := by
  have hall : (tagNames.all fun name => isAngleFree name.toList) = true := by decide
  exact List.all_eq_true.1 hall name h

theorem isAngleFree_of_mem_attributeNames {name : String} (h : name ∈ attributeNames) :
    isAngleFree name.toList = true := by
  have hall : (attributeNames.all fun name => isAngleFree name.toList) = true := by decide
  exact List.all_eq_true.1 hall name h

theorem Markup.IsOwn.isPlain {m : Markup} (h : m.IsOwn) : m.isPlain = true := by
  cases m with
  | doctype | text => rfl
  | opening name attributes =>
      refine Bool.and_eq_true_iff.2 ⟨isAngleFree_of_mem_tagNames h.1, ?_⟩
      exact List.all_eq_true.2 fun a ha => isAngleFree_of_mem_attributeNames (h.2 a ha)
  | closing name => exact isAngleFree_of_mem_tagNames h
  | verbatim content => exact h

theorem Line.IsOwn.isPlain {l : Line} (h : l.IsOwn) : l.isPlain = true :=
  List.all_eq_true.2 fun m hm => (h m hm).isPlain

namespace HasOwnNames

theorem nil : HasOwnNames [] := by simp [HasOwnNames]

theorem cons {name value : String} {attributes : List (String × String)}
    (hname : name ∈ attributeNames) (h : HasOwnNames attributes) :
    HasOwnNames ((name, value) :: attributes) :=
  List.forall_mem_cons.2 ⟨hname, h⟩

theorem data (words : List String) : HasOwnNames (dataAttributes words) := by
  unfold dataAttributes
  split
  · exact nil
  · exact cons (by decide) (cons (by decide) nil)

end HasOwnNames

section

variable (depth : Nat) {name : String} (hname : name ∈ tagNames)
  {attributes : List (String × String)} (hattributes : HasOwnNames attributes)

include hname hattributes

theorem isOwn_around (content : String) :
    ∀ l ∈ [(⟨depth, [.opening name attributes, .text content, .closing name]⟩ : Line)],
      l.IsOwn := by
  simp [Line.IsOwn, Markup.IsOwn, hname, hattributes]

theorem isOwn_void : ∀ l ∈ [(⟨depth, [.opening name attributes]⟩ : Line)], l.IsOwn := by
  simp [Line.IsOwn, Markup.IsOwn, hname, hattributes]

theorem isOwn_pair :
    ∀ l ∈ [(⟨depth, [.opening name attributes, .closing name]⟩ : Line)], l.IsOwn := by
  simp [Line.IsOwn, Markup.IsOwn, hname, hattributes]

theorem isOwn_block {ls : List Line} (h : ∀ l ∈ ls, l.IsOwn) :
    ∀ l ∈ (⟨depth, [.opening name attributes]⟩ :: ls ++ [⟨depth, [.closing name]⟩] : List Line),
      Line.IsOwn l := by
  refine List.forall_mem_append.2 ⟨List.forall_mem_cons.2 ⟨?_, h⟩, ?_⟩
  · simp [Line.IsOwn, Markup.IsOwn, hname, hattributes]
  · simp [Line.IsOwn, Markup.IsOwn, hname]

end

theorem isOwn_verbatim (depth : Nat) (texts : List String)
    (h : ∀ text ∈ texts, isAngleFree text.toList = true) :
    ∀ l ∈ texts.map (fun text => (⟨depth, [.verbatim text]⟩ : Line)), l.IsOwn := by
  intro l hl
  obtain ⟨text, htext, rfl⟩ := List.mem_map.1 hl
  exact List.forall_mem_cons.2 ⟨h text htext, by simp⟩

theorem isOwn_divContent (depth : Nat) {content : String} (h : isMarkup content = false) :
    ∀ l ∈ divContent depth content, l.IsOwn := by
  unfold divContent
  split
  · simp
  · simp [h, Line.IsOwn, Markup.IsOwn]

theorem isOwn_elementLines (depth : Nat) {e : Element}
    (h : e.kind = .div → isMarkup e.content = false) :
    ∀ l ∈ elementLines depth e, l.IsOwn := by
  obtain ⟨kind, content, words, span⟩ := e
  have hwords := HasOwnNames.data words
  cases kind with
  | link => exact isOwn_around depth (by decide) (.cons (by decide) hwords) _
  | image => exact isOwn_void depth (by decide) (.cons (by decide) (.cons (by decide) hwords))
  | input => exact isOwn_void depth (by decide) (.cons (by decide) hwords)
  | div => exact isOwn_block depth (by decide) hwords (isOwn_divContent (depth + 1) (h rfl))
  | other word => simp [elementLines, ElementKind.plainTag?]
  | _ => exact isOwn_around depth (by decide) hwords _

theorem isOwn_scriptLines (depth : Nat) (kind : ScriptKind) (words : List String) :
    ∀ l ∈ scriptLines depth kind words, l.IsOwn := by
  have hcomment : ∀ comment : String, isAngleFree comment.toList = true →
      ∀ l ∈ [(⟨depth + 1, [.verbatim comment]⟩ : Line)], l.IsOwn := by
    intro comment h
    exact isOwn_verbatim (depth + 1) [comment] (List.forall_mem_cons.2 ⟨h, by simp⟩)
  simp only [scriptLines]
  split
  · exact isOwn_block depth (by decide) .nil (hcomment _ (by decide))
  split
  · exact isOwn_block depth (by decide) (.cons (by decide) .nil) (hcomment _ (by decide))
  · exact isOwn_block depth (by decide) .nil (hcomment _ (by decide))

theorem isOwn_nodesLines (depth : Nat) {ns : List Node}
    (h : ∀ e, Node.element e ∈ bodyLeavesOf ns → e.kind = .div → isMarkup e.content = false) :
    ∀ l ∈ nodesLines depth ns, l.IsOwn := by
  intro l hl
  rw [nodesLines_bodyLeavesOf] at hl
  obtain ⟨n, hn, hln⟩ := List.mem_flatMap.1 hl
  have hleaf := isBodyLeaf_of_mem_list hn
  cases n with
  | title content span =>
      obtain rfl := List.mem_singleton.1 hln
      simp [titleLine, Line.IsOwn, Markup.IsOwn, HasOwnNames, tagNames]
  | script kind words span => exact isOwn_scriptLines depth kind words l hln
  | element e => exact isOwn_elementLines depth (h e hn) l hln
  | page | function | importing => cases hleaf

theorem isAngleFree_of_mem_codeLines {code line : String}
    (h : isAngleFree code.toList = true) (hline : line ∈ codeLines code) :
    isAngleFree line.toList = true := by
  obtain ⟨cs, hcs, rfl⟩ := List.mem_map.1 hline
  rw [String.toList_ofList]
  refine List.all_eq_true.2 fun c hc => List.all_eq_true.1 h c ?_
  have hmem := Text.mem_of_mem_pieces hcs hc
  split at hmem
  · exact List.dropLast_subset _ hmem
  · exact hmem

theorem isOwn_reference (depth : Nat) (type path : String) :
    ∀ l ∈ [(⟨depth, reference type path⟩ : Line)], l.IsOwn := by
  simp only [reference]
  split
  · exact isOwn_pair depth (by decide) (.cons (by decide) .nil)
  split
  · exact isOwn_pair depth (by decide) (.cons (by decide) (.cons (by decide) .nil))
  split
  · exact isOwn_void depth (by decide) (.cons (by decide) (.cons (by decide) .nil))
  · exact isOwn_pair depth (by decide) (.cons (by decide) .nil)

theorem isOwn_importLines (depth : Nat) {i : Import}
    (h : ∀ code, inlinedCode? i = some code → isAngleFree code.toList = true) :
    ∀ l ∈ importLines depth i, l.IsOwn := by
  obtain ⟨type, path, compiled, span⟩ := i
  cases path with
  | none => simp [importLines]
  | some path =>
      cases compiled with
      | none => exact isOwn_reference depth _ path
      | some code =>
          cases hdialect : inlineDialect? ⟨type, some path, some code, span⟩ with
          | none =>
              simp only [importLines, hdialect]
              exact isOwn_reference depth _ path
          | some d =>
              have hcode : isAngleFree code.toList = true :=
                h code (by simp [inlinedCode?, hdialect])
              have htag : inlineTag d ∈ tagNames := by cases d <;> decide
              simp only [importLines, hdialect]
              exact isOwn_block depth htag .nil
                (isOwn_verbatim _ _ fun line hline => isAngleFree_of_mem_codeLines hcode hline)

theorem isOwn_pageLines (layout : Layout) {d : Document}
    (hdiv : ∀ e, Node.element e ∈ bodyLeavesOf d.nodes → e.kind = .div →
      isMarkup e.content = false)
    (hcode : ∀ i ∈ headImports d.nodes, ∀ code, inlinedCode? i = some code →
      isAngleFree code.toList = true) :
    ∀ l ∈ pageLines layout d, l.IsOwn := by
  have hbody := isOwn_nodesLines 2 hdiv
  have himports : ∀ l ∈ (headImports d.nodes).flatMap (importLines 2), l.IsOwn := by
    intro l hl
    obtain ⟨i, hi, hli⟩ := List.mem_flatMap.1 hl
    exact isOwn_importLines 2 (hcode i hi) l hli
  have hcharset : HasOwnNames [("charset", "UTF-8")] := .cons (by decide) .nil
  have hviewport : HasOwnNames
      [("name", "viewport"), ("content", "width=device-width, initial-scale=1.0")] :=
    .cons (by decide) (.cons (by decide) .nil)
  simp only [pageLines, headLines, List.forall_mem_append]
  refine ⟨⟨⟨⟨?_, ?_, himports⟩, ?_⟩, hbody⟩, ?_⟩
  · simp [Line.IsOwn, Markup.IsOwn, HasOwnNames.nil, tagNames]
  · simp [titleLine, Line.IsOwn, Markup.IsOwn, HasOwnNames.nil, hcharset, hviewport, tagNames]
  · simp [Line.IsOwn, Markup.IsOwn, HasOwnNames.nil, tagNames]
  · simp [Line.IsOwn, Markup.IsOwn, tagNames]

theorem attributes_of_isOwn {m : Markup} (h : m.IsOwn) {t : Tag} (ht : m.tag? = some t) :
    ∀ a ∈ t.attributes, a.1 ∈ attributeNames ∧ '"' ∉ a.2.toList := by
  cases m with
  | doctype | closing =>
      cases ht
      simp [Tag.attributes]
  | text | verbatim => cases ht
  | opening name attributes =>
      cases ht
      intro a ha
      obtain ⟨b, hb, rfl⟩ := List.mem_map.1 ha
      exact ⟨h.2 b hb, not_mem_escape (by decide) b.2⟩

def frameNames : List String := ["html", "head", "body"]

structure IsFragment (tags : List Tag) : Prop where
  nested : IsNested tags
  inner : ∀ t ∈ tags, ∀ name ∈ frameNames, t.opens name = false

namespace IsFragment

theorem nil : IsFragment [] := ⟨.nil, by simp⟩

theorem flatMap {α : Type} {f : α → List Tag} {xs : List α} (h : ∀ x ∈ xs, IsFragment (f x)) :
    IsFragment (xs.flatMap f) where
  nested := .flatMap fun x hx => (h x hx).nested
  inner t ht := by
    obtain ⟨x, hx, htx⟩ := List.mem_flatMap.1 ht
    exact (h x hx).inner t htx

theorem append {tags others : List Tag} (h : IsFragment tags) (h' : IsFragment others) :
    IsFragment (tags ++ others) where
  nested := h.nested.append h'.nested
  inner := List.forall_mem_append.2 ⟨h.inner, h'.inner⟩

theorem opens_eq_false {name : String} (h : name ∉ frameNames) (attributes : List (String × String)) :
    ∀ n ∈ frameNames, (Tag.opening name attributes).opens n = false := by
  intro n hn
  have hne : name ≠ n := by
    rintro rfl
    exact h hn
  simpa [Tag.opens] using hne

theorem element {name : String} (hvoid : name ∉ voidTags) (hframe : name ∉ frameNames)
    (attributes : List (String × String)) : IsFragment (enclosed name attributes []) where
  nested := .enclosed hvoid attributes .nil
  inner := by
    refine List.forall_mem_cons.2 ⟨opens_eq_false hframe attributes, ?_⟩
    simp [Tag.opens]

theorem void {name : String} (hvoid : name ∈ voidTags) (hframe : name ∉ frameNames)
    (attributes : List (String × String)) : IsFragment [.opening name attributes] where
  nested := .void hvoid attributes
  inner := List.forall_mem_cons.2 ⟨opens_eq_false hframe attributes, by simp⟩

end IsFragment

theorem isFragment_leafTags (n : Node) : IsFragment (leafTags n) := by
  cases n with
  | page | function | importing => exact .nil
  | title content span => exact .element (by decide) (by decide) _
  | script kind words span =>
      simp only [leafTags, scriptTags]
      repeat' split
      all_goals exact .element (by decide) (by decide) _
  | element e =>
      obtain ⟨kind, content, words, span⟩ := e
      cases kind with
      | image | input => exact .void (by decide) (by decide) _
      | other word => exact .nil
      | _ => exact .element (by decide) (by decide) _

theorem isFragment_importTags (i : Import) : IsFragment (importTags i) := by
  have hreference : ∀ type path, IsFragment (referenceTags type path) := by
    intro type path
    simp only [referenceTags]
    split
    · exact .element (by decide) (by decide) _
    split
    · exact .element (by decide) (by decide) _
    split
    · exact .void (by decide) (by decide) _
    · exact .element (by decide) (by decide) _
  unfold importTags
  split
  · exact .nil
  · next d _ _ _ => cases d <;> exact .element (by decide) (by decide) _
  · exact hreference _ _

theorem isFragment_headTags (d : Document) : IsFragment (headTags d) := by
  have hmeta : ∀ attributes, IsFragment [.opening "meta" attributes] :=
    .void (by decide) (by decide)
  have htitle : IsFragment (enclosed "title" [] []) := .element (by decide) (by decide) []
  exact (((hmeta _).append (hmeta _)).append htitle).append
    (.flatMap fun i _ => isFragment_importTags i)

theorem isFragment_bodyTags (d : Document) : IsFragment (bodyTags d) :=
  .flatMap fun n _ => isFragment_leafTags n

theorem isNested_pageTags (d : Document) : IsNested (pageTags d) := by
  have hhead : IsNested (enclosed "head" [] (headTags d)) :=
    .enclosed (by decide) [] (isFragment_headTags d).nested
  have hbody : IsNested (enclosed "body" [] (bodyTags d)) :=
    .enclosed (by decide) [] (isFragment_bodyTags d).nested
  have hhtml : IsNested (enclosed "html" []
      (enclosed "head" [] (headTags d) ++ enclosed "body" [] (bodyTags d))) :=
    .enclosed (by decide) [] (hhead.append hbody)
  exact IsNested.doctype.append hhtml

theorem countP_opens_fragment {tags : List Tag} (h : IsFragment tags) {name : String}
    (hname : name ∈ frameNames) : tags.countP (Tag.opens name) = 0 :=
  List.countP_eq_zero.2 fun t ht => by simp [h.inner t ht name hname]

theorem countP_opens_pageTags (d : Document) {name : String} (hname : name ∈ frameNames) :
    (pageTags d).countP (Tag.opens name) = 1 := by
  have hhead := countP_opens_fragment (isFragment_headTags d) hname
  have hbody := countP_opens_fragment (isFragment_bodyTags d) hname
  simp only [pageTags, enclosed, List.countP_cons, List.countP_append, hhead, hbody,
    List.countP_nil, Tag.opens]
  simp only [frameNames, List.mem_cons, List.not_mem_nil, or_false] at hname
  rcases hname with rfl | rfl | rfl <;> decide

/-- The text of a page, cut at its angle brackets, gives the tags of the page and texts without
brackets. The tags are nested around one head and one body, and have only the attributes of pages,
with values that no quote can end. -/
theorem segments?_render (layout : Layout) (d : Document)
    (hunit : Text.isBlankText layout.unit.toList = true)
    (hdiv : ∀ e, Node.element e ∈ bodyLeavesOf d.nodes → e.kind = .div →
      isMarkup e.content = false)
    (hcode : ∀ i ∈ headImports d.nodes, ∀ code, inlinedCode? i = some code →
      isAngleFree code.toList = true) :
    ∃ ss, segments? (render layout d).toList = some ss ∧
      ss.filterMap Segment.tag? = ((pageTags d).map fun t => t.text.toList) ∧
      (∀ s ∈ ss, isAngleFree s.content = true) ∧
      openAfter [] (pageTags d) = some [] ∧
      (∀ name ∈ frameNames, (pageTags d).countP (Tag.opens name) = 1) ∧
      ∀ t ∈ pageTags d, ∀ a ∈ t.attributes, a.1 ∈ attributeNames ∧ '"' ∉ a.2.toList := by
  have hown := isOwn_pageLines layout hdiv hcode
  have hreads : Reads (render layout d).toList (pageTags d) := by
    rw [← tags_pageLines layout d]
    exact reads_renderLines (isAngleFree_of_blank hunit) fun l hl => (hown l hl).isPlain
  obtain ⟨ss, hss, htags, hfree⟩ := hreads.segments
  refine ⟨ss, hss, htags, hfree, isNested_pageTags d [], fun _ => countP_opens_pageTags d, ?_⟩
  intro t ht
  rw [← tags_pageLines layout d] at ht
  obtain ⟨l, hl, htl⟩ := List.mem_flatMap.1 ht
  obtain ⟨m, hm, htm⟩ := List.mem_filterMap.1 htl
  exact attributes_of_isOwn (hown l hl m hm) htm

def hostilePage : Document :=
  ⟨[.importing ⟨some "js", some "a\"><b>", none, .empty 0⟩,
    .importing ⟨none, some "s.ceng", some "/* & */", .empty 0⟩,
    .function "setup" [.title "</title>" (.empty 0)] (.empty 0),
    .page [.element ⟨.div, "a </div>", ["\"x"], .empty 0⟩] (.empty 0)]⟩

theorem segments?_render_hostilePage :
    ∃ ss, segments? (render .default hostilePage).toList = some ss ∧
      ss.filterMap Segment.tag? = ["!DOCTYPE html", "html", "head", "meta charset=\"UTF-8\"",
        "meta name=\"viewport\" content=\"width=device-width, initial-scale=1.0\"", "title",
        "/title", "script src=\"a&quot;&gt;&lt;b&gt;\"", "/script", "style", "/style", "/head",
        "body", "div class=\"with-&quot;x\" data-with=\"&quot;x\"", "/div", "/body",
        "/html"].map String.toList := by
  have hleaves : bodyLeavesOf hostilePage.nodes =
      [.element ⟨.div, "a </div>", ["\"x"], .empty 0⟩] := by
    simp [hostilePage, bodyLeavesOf, bodyLeaves, isSetupName]
  have himports : (headImports hostilePage.nodes).all
      (fun i => (inlinedCode? i).all fun code => isAngleFree code.toList) = true := by
    decide +kernel
  obtain ⟨ss, hss, htags, -⟩ := segments?_render .default hostilePage (by decide)
    (fun e he _ => by
      rw [hleaves] at he
      obtain rfl := Node.element.inj (List.mem_singleton.1 he)
      decide)
    (fun i hi code hcode => by
      have hall := List.all_eq_true.1 himports i hi
      rw [hcode] at hall
      exact hall)
  exact ⟨ss, hss, htags.trans (by decide +kernel)⟩

end EnglishPages.Html
