import EnglishPages.Html.Page

/-!
A normal form of documents. The head of a page is made of the top-level imports and of what the
top-level setup functions hold directly; the body is made of the leaves that are left when pages
and other functions are replaced by what they hold. A document that lists just these, the former in
one setup function and the latter after it, gives the same page.

The head looks one level deep and the body looks at every level, so the two halves are proved
apart: the first node by node, the second by induction on the tree.
-/

namespace EnglishPages

namespace Node

mutual

/-- The leaves that a node shows in the body. Pages and functions are spliced in place; setup
functions and imports show nothing. -/
def bodyLeaves : Node → List Node
  | page children _ => bodyLeavesOf children
  | function name children _ => if isSetupName name then [] else bodyLeavesOf children
  | importing _ => []
  | title content span => [title content span]
  | script kind attributes span => [script kind attributes span]
  | element e => [element e]

def bodyLeavesOf : List Node → List Node
  | [] => []
  | node :: nodes => bodyLeaves node ++ bodyLeavesOf nodes

end

def title? : Node → Option String
  | title content _ => if content.isEmpty then none else some content
  | _ => none

def isHeadItem : Node → Bool
  | importing _ => true
  | title _ _ => true
  | _ => false

/-- What a node of the top level gives to the head: itself, if it is an import, or the imports and
titles directly in it, if it is a setup function. -/
def headItems : Node → List Node
  | importing i => [importing i]
  | function name children _ => if isSetupName name then children.filter isHeadItem else []
  | _ => []

mutual

def withoutSetup : Node → Node
  | page children span => page (withoutSetupOf children) span
  | function name children span => function name (withoutSetupOf children) span
  | importing i => importing i
  | title content span => title content span
  | script kind attributes span => script kind attributes span
  | element e => element e

def withoutSetupOf : List Node → List Node
  | [] => []
  | node :: nodes =>
      if node.isSetup then withoutSetupOf nodes else withoutSetup node :: withoutSetupOf nodes

end

end Node

namespace Document

def normal (d : Document) : Document :=
  ⟨.function "setup" (d.nodes.flatMap Node.headItems) (.empty 0) :: Node.bodyLeavesOf d.nodes⟩

def withoutNestedSetup (d : Document) : Document :=
  ⟨d.nodes.map Node.withoutSetup⟩

end Document

namespace Node

def isBodyLeaf : Node → Bool
  | title _ _ => true
  | script _ _ _ => true
  | element _ => true
  | _ => false

theorem bodyLeaves_of_isBodyLeaf {n : Node} (h : n.isBodyLeaf = true) : n.bodyLeaves = [n] := by
  cases n with
  | title | script | element => rfl
  | page | function | importing => cases h

theorem headItems_of_isBodyLeaf {n : Node} (h : n.isBodyLeaf = true) : n.headItems = [] := by
  cases n with
  | title | script | element => rfl
  | page | function | importing => cases h

mutual

theorem isBodyLeaf_of_mem {n m : Node} (h : m ∈ bodyLeaves n) : m.isBodyLeaf = true := by
  cases n with
  | page children span => exact isBodyLeaf_of_mem_list h
  | function name children span =>
      rw [bodyLeaves] at h
      split at h
      · cases h
      · exact isBodyLeaf_of_mem_list h
  | importing i => cases h
  | title content span =>
      obtain rfl := List.mem_singleton.1 h
      rfl
  | script kind attributes span =>
      obtain rfl := List.mem_singleton.1 h
      rfl
  | element e =>
      obtain rfl := List.mem_singleton.1 h
      rfl

theorem isBodyLeaf_of_mem_list {ns : List Node} {m : Node} (h : m ∈ bodyLeavesOf ns) :
    m.isBodyLeaf = true := by
  cases ns with
  | nil => cases h
  | cons n ns =>
      rcases List.mem_append.1 h with h | h
      · exact isBodyLeaf_of_mem h
      · exact isBodyLeaf_of_mem_list h

end

theorem bodyLeavesOf_eq_flatMap (ns : List Node) : bodyLeavesOf ns = ns.flatMap bodyLeaves := by
  induction ns with
  | nil => rfl
  | cons n ns ih => rw [bodyLeavesOf, List.flatMap_cons, ih]

theorem bodyLeavesOf_of_leaves {ns : List Node} (h : ∀ n ∈ ns, n.isBodyLeaf = true) :
    bodyLeavesOf ns = ns := by
  induction ns with
  | nil => rfl
  | cons n ns ih =>
      obtain ⟨hn, hns⟩ := List.forall_mem_cons.1 h
      rw [bodyLeavesOf, bodyLeaves_of_isBodyLeaf hn, ih hns]
      rfl

theorem bodyLeavesOf_normal (d : Document) :
    bodyLeavesOf d.normal.nodes = bodyLeavesOf d.nodes :=
  bodyLeavesOf_of_leaves fun _ h => isBodyLeaf_of_mem_list h

mutual

theorem bodyLeaves_withoutSetup (n : Node) : (withoutSetup n).bodyLeaves = n.bodyLeaves := by
  cases n with
  | page children span => exact bodyLeavesOf_withoutSetupOf children
  | function name children span =>
      rw [withoutSetup, bodyLeaves, bodyLeaves, bodyLeavesOf_withoutSetupOf children]
  | importing | title | script | element => rfl

theorem bodyLeavesOf_withoutSetupOf (ns : List Node) :
    bodyLeavesOf (withoutSetupOf ns) = bodyLeavesOf ns := by
  cases ns with
  | nil => rfl
  | cons n ns =>
      rw [withoutSetupOf]
      split
      · next hsetup =>
          have hnone : n.bodyLeaves = [] := by
            cases n with
            | function name children span => exact if_pos hsetup
            | page | importing | title | script | element => cases hsetup
          rw [bodyLeavesOf, hnone, bodyLeavesOf_withoutSetupOf ns]
          rfl
      · rw [bodyLeavesOf, bodyLeavesOf, bodyLeaves_withoutSetup n, bodyLeavesOf_withoutSetupOf ns]

end

theorem bodyLeavesOf_withoutNestedSetup (d : Document) :
    bodyLeavesOf d.withoutNestedSetup.nodes = bodyLeavesOf d.nodes := by
  rw [bodyLeavesOf_eq_flatMap, bodyLeavesOf_eq_flatMap, Document.withoutNestedSetup,
    List.flatMap_map]
  exact congrArg (d.nodes.flatMap ·) (funext bodyLeaves_withoutSetup)

theorem isHeadItem_of_import? {n : Node} {i : Import} (h : n.import? = some i) :
    n.isHeadItem = true := by
  cases n with
  | importing => rfl
  | page | function | title | script | element => cases h

theorem isHeadItem_of_title? {n : Node} {s : String} (h : n.title? = some s) :
    n.isHeadItem = true := by
  cases n with
  | title => rfl
  | page | function | importing | script | element => cases h

theorem filterMap_filter_isHeadItem {α : Type} {f : Node → Option α}
    (hf : ∀ {n a}, f n = some a → n.isHeadItem = true) (ns : List Node) :
    (ns.filter isHeadItem).filterMap f = ns.filterMap f := by
  rw [List.filterMap_filter]
  congr 1
  funext n
  split
  · rfl
  · next hn =>
      cases hfn : f n with
      | none => rfl
      | some a => exact absurd (hf hfn) hn

theorem filterMap_withoutSetupOf {α : Type} {f : Node → Option α}
    (hf : ∀ {n a}, f n = some a → n.isHeadItem = true)
    (hwithout : ∀ n : Node, f n.withoutSetup = f n) (ns : List Node) :
    (withoutSetupOf ns).filterMap f = ns.filterMap f := by
  induction ns with
  | nil => rfl
  | cons n ns ih =>
      rw [withoutSetupOf]
      split
      · next hsetup =>
          have hnone : f n = none := by
            cases hfn : f n with
            | none => rfl
            | some a =>
                have hitem := hf hfn
                cases n with
                | function => cases hitem
                | page | importing | title | script | element => cases hsetup
          rw [List.filterMap_cons_none hnone, ih]
      · rw [List.filterMap_cons, List.filterMap_cons, hwithout, ih]

theorem import?_withoutSetup (n : Node) : n.withoutSetup.import? = n.import? := by
  cases n <;> rfl

theorem title?_withoutSetup (n : Node) : n.withoutSetup.title? = n.title? := by
  cases n <;> rfl

end Node

namespace Html

open Node

theorem headImports_eq (ns : List Node) :
    headImports ns = (ns.flatMap headItems).filterMap Node.import? := by
  rw [List.filterMap_flatMap, headImports]
  congr 1
  funext n
  cases n with
  | function name children span =>
      simp only [headItems]
      split
      · exact (filterMap_filter_isHeadItem isHeadItem_of_import? children).symm
      · rfl
  | page | importing | title | script | element => rfl

theorem title?_eq (ns : List Node) :
    title? ns = ((ns.flatMap headItems).filterMap Node.title?).getLast? := by
  have hdef : title? ns =
      ((ns.filter isSetup).flatMap fun n => n.functionBody.filterMap Node.title?).getLast? := rfl
  rw [hdef]
  congr 1
  clear hdef
  induction ns with
  | nil => rfl
  | cons n ns ih =>
      rw [List.flatMap_cons, List.filterMap_append, ← ih]
      cases n with
      | function name children span =>
          by_cases hsetup : isSetupName name = true
          · have hfilter : (function name children span :: ns).filter isSetup =
                function name children span :: ns.filter isSetup := List.filter_cons_of_pos hsetup
            have hitems : headItems (function name children span) = children.filter isHeadItem :=
              if_pos hsetup
            rw [hfilter, List.flatMap_cons, hitems, filterMap_filter_isHeadItem isHeadItem_of_title?]
            rfl
          · have hfilter : (function name children span :: ns).filter isSetup =
                ns.filter isSetup := List.filter_cons_of_neg hsetup
            have hitems : headItems (function name children span) = [] := if_neg hsetup
            rw [hfilter, hitems]
            rfl
      | page | importing | title | script | element => rfl

theorem headItems_normal (d : Document) :
    d.normal.nodes.flatMap headItems = d.nodes.flatMap headItems := by
  have hleaves : (bodyLeavesOf d.nodes).flatMap headItems = [] :=
    List.flatMap_eq_nil_iff.2 fun n hn => headItems_of_isBodyLeaf (isBodyLeaf_of_mem_list hn)
  have hkept : (d.nodes.flatMap headItems).filter isHeadItem = d.nodes.flatMap headItems := by
    refine List.filter_eq_self.2 fun m hm => ?_
    obtain ⟨n, -, hmn⟩ := List.mem_flatMap.1 hm
    cases n with
    | importing i =>
        obtain rfl := List.mem_singleton.1 hmn
        rfl
    | function name children span =>
        rw [headItems] at hmn
        split at hmn
        · exact (List.mem_filter.1 hmn).2
        · cases hmn
    | page | title | script | element => cases hmn
  change (d.nodes.flatMap headItems).filter isHeadItem ++ (bodyLeavesOf d.nodes).flatMap headItems
    = _
  rw [hkept, hleaves, List.append_nil]

theorem filterMap_headItems_withoutSetup {α : Type} {f : Node → Option α}
    (hf : ∀ {n a}, f n = some a → n.isHeadItem = true)
    (hwithout : ∀ n : Node, f n.withoutSetup = f n) (ns : List Node) :
    ((ns.map withoutSetup).flatMap headItems).filterMap f = (ns.flatMap headItems).filterMap f := by
  rw [List.flatMap_map, List.filterMap_flatMap, List.filterMap_flatMap]
  congr 1
  funext n
  cases n with
  | function name children span =>
      simp only [withoutSetup, headItems]
      split
      · rw [filterMap_filter_isHeadItem hf, filterMap_filter_isHeadItem hf,
          filterMap_withoutSetupOf hf hwithout]
      · rfl
  | page | importing | title | script | element => rfl

open Node

theorem nodesLines_eq_flatMap (depth : Nat) (ns : List Node) :
    nodesLines depth ns = ns.flatMap (nodeLines depth) := by
  induction ns with
  | nil => rfl
  | cons n ns ih => rw [nodesLines, List.flatMap_cons, ih]

mutual

theorem nodeLines_bodyLeaves (depth : Nat) (n : Node) :
    nodeLines depth n = n.bodyLeaves.flatMap (nodeLines depth) := by
  cases n with
  | page children span =>
      rw [nodeLines, bodyLeaves]
      exact nodesLines_bodyLeavesOf depth children
  | function name children span =>
      rw [nodeLines, bodyLeaves]
      split
      · rfl
      · exact nodesLines_bodyLeavesOf depth children
  | importing i => rfl
  | title | script | element => exact (List.flatMap_singleton _ _).symm

theorem nodesLines_bodyLeavesOf (depth : Nat) (ns : List Node) :
    nodesLines depth ns = (bodyLeavesOf ns).flatMap (nodeLines depth) := by
  cases ns with
  | nil => rfl
  | cons n ns =>
      rw [nodesLines, bodyLeavesOf, List.flatMap_append, ← nodeLines_bodyLeaves depth n,
        ← nodesLines_bodyLeavesOf depth ns]

end

/-- Lines that begin and end at a depth and do not rise above it in between. -/
structure ReturnsTo (depth : Nat) (ls : List Line) : Prop where
  head : ∀ l ∈ ls.head?, l.depth = depth
  last : ∀ l ∈ ls.getLast?, l.depth = depth
  inner : ∀ l ∈ ls, depth ≤ l.depth

theorem returnsTo_nil (depth : Nat) : ReturnsTo depth [] :=
  ⟨by simp, by simp, by simp⟩

theorem returnsTo_singleton (depth : Nat) (pieces : List Markup) :
    ReturnsTo depth [⟨depth, pieces⟩] :=
  ⟨by simp, by simp, by simp⟩

theorem returnsTo_enclosed {depth : Nat} (first last : List Markup) (ls : List Line)
    (h : ∀ l ∈ ls, depth ≤ l.depth) :
    ReturnsTo depth (⟨depth, first⟩ :: ls ++ [⟨depth, last⟩]) where
  head := by simp
  last := by
    rw [List.getLast?_concat]
    simp
  inner l hl := by
    simp only [List.mem_append, List.mem_cons, List.not_mem_nil, or_false] at hl
    rcases hl with (rfl | hl) | rfl
    · exact Nat.le_refl depth
    · exact h l hl
    · exact Nat.le_refl depth

theorem returnsTo_flatMap {α : Type} {depth : Nat} {f : α → List Line} {xs : List α}
    (h : ∀ x ∈ xs, ReturnsTo depth (f x)) : ReturnsTo depth (xs.flatMap f) where
  head l hl := by
    rw [List.head?_flatMap] at hl
    obtain ⟨x, hx, hhead⟩ := List.exists_of_findSome?_eq_some hl
    exact (h x hx).head l hhead
  last l hl := by
    rw [List.getLast?_flatMap] at hl
    obtain ⟨x, hx, hlast⟩ := List.exists_of_findSome?_eq_some hl
    exact (h x (List.mem_reverse.1 hx)).last l hlast
  inner l hl := by
    obtain ⟨x, hx, hmem⟩ := List.mem_flatMap.1 hl
    exact (h x hx).inner l hmem

theorem depth_le_of_mem_divContent {depth : Nat} {content : String} {l : Line}
    (h : l ∈ divContent depth content) : depth ≤ l.depth := by
  rw [divContent] at h
  split at h
  · cases h
  split at h
  · obtain ⟨text, -, rfl⟩ := List.mem_map.1 h
    exact Nat.le_refl depth
  · obtain rfl := List.mem_singleton.1 h
    exact Nat.le_refl depth

theorem returnsTo_elementLines (depth : Nat) (e : Element) :
    ReturnsTo depth (elementLines depth e) := by
  obtain ⟨kind, content, attributes, span⟩ := e
  cases kind with
  | div =>
      exact returnsTo_enclosed _ _ _ fun l hl =>
        Nat.le_of_succ_le (depth_le_of_mem_divContent hl)
  | other word => exact returnsTo_nil depth
  | _ => exact returnsTo_singleton depth _

theorem returnsTo_scriptLines (depth : Nat) (kind : ScriptKind) (attributes : List String) :
    ReturnsTo depth (scriptLines depth kind attributes) := by
  have haround : ∀ first comment last : List Markup,
      ReturnsTo depth [⟨depth, first⟩, ⟨depth + 1, comment⟩, ⟨depth, last⟩] :=
    fun first comment last => returnsTo_enclosed first last [⟨depth + 1, comment⟩] (by simp)
  simp only [scriptLines]
  split
  · exact haround _ _ _
  · split <;> exact haround _ _ _

theorem returnsTo_of_isBodyLeaf (depth : Nat) {n : Node} (h : n.isBodyLeaf = true) :
    ReturnsTo depth (nodeLines depth n) := by
  cases n with
  | title content span => exact returnsTo_singleton depth _
  | script kind attributes span => exact returnsTo_scriptLines depth kind attributes
  | element e => exact returnsTo_elementLines depth e
  | importing | page | function => cases h

theorem returnsTo_nodeLines (depth : Nat) (n : Node) : ReturnsTo depth (nodeLines depth n) := by
  rw [nodeLines_bodyLeaves]
  exact returnsTo_flatMap fun m hm => returnsTo_of_isBodyLeaf depth (isBodyLeaf_of_mem hm)

theorem pageLines_congr (layout : Layout) {d d' : Document}
    (htitle : title? d.nodes = title? d'.nodes)
    (himports : headImports d.nodes = headImports d'.nodes)
    (hleaves : bodyLeavesOf d.nodes = bodyLeavesOf d'.nodes) :
    pageLines layout d = pageLines layout d' := by
  simp only [pageLines, headLines, htitle, himports, nodesLines_bodyLeavesOf, hleaves]

theorem pageLines_normal (layout : Layout) (d : Document) :
    pageLines layout d.normal = pageLines layout d := by
  apply pageLines_congr
  · rw [title?_eq, title?_eq, headItems_normal]
  · rw [headImports_eq, headImports_eq, headItems_normal]
  · exact bodyLeavesOf_normal d

theorem pageLines_withoutNestedSetup (layout : Layout) (d : Document) :
    pageLines layout d.withoutNestedSetup = pageLines layout d := by
  apply pageLines_congr
  · rw [title?_eq, title?_eq]
    exact congrArg List.getLast?
      (filterMap_headItems_withoutSetup isHeadItem_of_title? title?_withoutSetup d.nodes)
  · rw [headImports_eq, headImports_eq]
    exact filterMap_headItems_withoutSetup isHeadItem_of_import? import?_withoutSetup d.nodes
  · exact bodyLeavesOf_withoutNestedSetup d

/-- A document and its normal form give the same page. A node among others is written as it would
be alone, from its depth back to its depth, and setup functions that do not stand at the top level
may be left out. -/
theorem render_normal (layout : Layout) (d : Document) :
    render layout d = render layout d.normal ∧
      (∀ depth before n after,
        nodesLines depth (before ++ n :: after) =
          nodesLines depth before ++ nodeLines depth n ++ nodesLines depth after ∧
        ReturnsTo depth (nodeLines depth n)) ∧
      render layout d.withoutNestedSetup = render layout d := by
  refine ⟨?_, fun depth before n after => ⟨?_, returnsTo_nodeLines depth n⟩, ?_⟩
  · rw [render, render, pageLines_normal]
  · simp only [nodesLines_eq_flatMap, List.flatMap_append, List.flatMap_cons, List.append_assoc]
  · rw [render, render, pageLines_withoutNestedSetup]

end Html

end EnglishPages
