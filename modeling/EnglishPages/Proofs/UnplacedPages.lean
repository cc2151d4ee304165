import EnglishPages.Compilation
import EnglishPages.Proofs.ImportResolution
import EnglishPages.Proofs.NormalForm
import EnglishPages.Proofs.Unplaced

/-!
Pages apart from the places of their statements. No line of a page is made from a span, and
resolving an import looks at its path alone, so a document whose places have been forgotten gives
the same page; its warnings are the same too, but for the spans in them.
-/

namespace EnglishPages

def Import.unplaced (i : Import) : Import := { i with span := .empty 0 }

/-- A diagnostic without the place that it is about. The line and the column stay as details without
a value; all other details stay as they are. -/
def Diagnostic.unplaced (d : Diagnostic) : Diagnostic :=
  { d with
    span := d.span.map fun _ => .empty 0
    context := d.context.map (List.map fun (key, value) =>
      if key = "line" ∨ key = "column" then (key, "") else (key, value)) }

namespace Import

variable (base : Path) (load : Loader)

theorem resolved_unplaced (i : Import) :
    i.unplaced.resolved base load = (i.resolved base load).unplaced := by
  obtain ⟨type, path, compiled, span⟩ := i
  cases path with
  | none => rfl
  | some path =>
      simp only [unplaced, resolved]
      split
      · rfl
      · rfl

theorem warning?_unplaced (i : Import) :
    (i.unplaced.warning? base load).map Diagnostic.unplaced =
      (i.warning? base load).map Diagnostic.unplaced := by
  obtain ⟨type, path, compiled, span⟩ := i
  cases path with
  | none => rfl
  | some path =>
      simp only [unplaced, warning?]
      split
      · rfl
      · rfl

end Import

namespace Node

theorem unplacedOf_eq_map (ns : List Node) : unplacedOf ns = ns.map unplaced := by
  induction ns with
  | nil => rfl
  | cons n ns ih => rw [unplacedOf, ih, List.map_cons]

theorem unplaced_function (name : String) (children : List Node) (span : Span) :
    unplaced (.function name children span) =
      .function name (children.map unplaced) (.empty 0) := by
  rw [unplaced, unplacedOf_eq_map]

theorem import?_unplaced (n : Node) : n.unplaced.import? = n.import?.map Import.unplaced := by
  cases n <;> simp only [unplaced] <;> rfl

theorem functionBody_unplaced (n : Node) :
    n.unplaced.functionBody = n.functionBody.map unplaced := by
  cases n with
  | function name children span =>
      rw [unplaced_function]
      rfl
  | page | importing | title | script | element =>
      simp only [unplaced]
      rfl

theorem filterMap_import?_unplaced (ns : List Node) :
    (ns.map unplaced).filterMap import? = (ns.filterMap import?).map Import.unplaced := by
  have hcomp : import? ∘ unplaced = fun n => n.import?.map Import.unplaced :=
    funext import?_unplaced
  rw [List.filterMap_map, List.map_filterMap, hcomp]

variable (base : Path) (load : Loader)

theorem resolveImport_unplaced (n : Node) :
    n.unplaced.resolveImport base load = (n.resolveImport base load).unplaced := by
  cases n with
  | importing i =>
      have hi := i.resolved_unplaced base load
      simp only [unplaced, resolveImport, Import.resolve_eq]
      exact congrArg importing hi
  | page | function | title | script | element => simp only [resolveImport, unplaced]

theorem resolve_unplaced (n : Node) :
    n.unplaced.resolve base load = (n.resolve base load).unplaced := by
  cases n with
  | function name children span =>
      rw [unplaced_function, resolve, resolve, unplaced_function, List.map_map, List.map_map]
      congr 1
      exact List.map_congr_left fun m _ => m.resolveImport_unplaced base load
  | importing i =>
      have hi := resolveImport_unplaced base load (.importing i)
      simp only [unplaced] at hi ⊢
      exact hi
  | page | title | script | element => simp only [resolve, resolveImport, unplaced]

end Node

namespace Document

variable (d : Document) (base : Path) (load : Loader)

theorem nodes_unplaced : d.unplaced.nodes = d.nodes.map Node.unplaced :=
  Node.unplacedOf_eq_map d.nodes

theorem imports_unplaced : d.unplaced.imports = d.imports.map Import.unplaced := by
  simp only [imports, nodes_unplaced, List.flatMap_map, List.map_flatMap]
  congr 1
  funext n
  rw [Node.functionBody_unplaced, ← List.map_cons, Node.filterMap_import?_unplaced]

theorem resolve_unplaced :
    d.unplaced.resolve base load = (d.resolve base load).unplaced := by
  have hnodes : (d.unplaced.resolve base load).nodes = (d.resolve base load).unplaced.nodes := by
    simp only [nodes_unplaced, resolve, List.map_map]
    exact List.map_congr_left fun n _ => n.resolve_unplaced base load
  exact congrArg Document.mk hnodes

theorem resolutionWarnings_unplaced :
    (d.unplaced.resolutionWarnings base load).map Diagnostic.unplaced =
      (d.resolutionWarnings base load).map Diagnostic.unplaced := by
  rw [resolutionWarnings_eq, resolutionWarnings_eq, imports_unplaced, List.filterMap_map,
    List.map_filterMap, List.map_filterMap]
  congr 1
  funext i
  exact i.warning?_unplaced base load

end Document

namespace Node

theorem title?_unplaced (n : Node) : n.unplaced.title? = n.title? := by
  cases n <;> simp only [unplaced] <;> rfl

theorem headItems_unplaced (n : Node) : n.unplaced.headItems = n.headItems.map unplaced := by
  cases n with
  | function name children span =>
      have hitem : isHeadItem ∘ unplaced = isHeadItem := by
        funext m
        cases m <;> simp only [Function.comp, unplaced] <;> rfl
      rw [unplaced_function, headItems, headItems]
      split
      · rw [List.filter_map, hitem]
      · rfl
  | importing i => simp only [unplaced, headItems, List.map_cons, List.map_nil]
  | page | title | script | element =>
      simp only [unplaced]
      rfl

theorem flatMap_headItems_unplaced (ns : List Node) :
    (ns.map unplaced).flatMap headItems = (ns.flatMap headItems).map unplaced := by
  rw [List.flatMap_map, List.map_flatMap]
  congr 1
  funext n
  exact n.headItems_unplaced

end Node

namespace Html

open Node

theorem title?_unplaced (ns : List Node) : title? (ns.map unplaced) = title? ns := by
  have hcomp : Node.title? ∘ unplaced = Node.title? := funext Node.title?_unplaced
  rw [title?_eq, title?_eq, flatMap_headItems_unplaced, List.filterMap_map, hcomp]

theorem headImports_unplaced (ns : List Node) :
    headImports (ns.map unplaced) = (headImports ns).map Import.unplaced := by
  rw [headImports_eq, headImports_eq, flatMap_headItems_unplaced, filterMap_import?_unplaced]

theorem importLines_unplaced (depth : Nat) (i : Import) :
    importLines depth i.unplaced = importLines depth i := rfl

mutual

theorem nodeLines_unplaced (depth : Nat) (n : Node) :
    nodeLines depth n.unplaced = nodeLines depth n := by
  cases n with
  | page children span =>
      rw [unplaced, nodeLines, nodeLines]
      exact nodesLines_unplacedOf depth children
  | function name children span =>
      rw [unplaced, nodeLines, nodeLines, nodesLines_unplacedOf depth children]
  | importing i => simp only [unplaced, nodeLines]
  | title content span => simp only [unplaced, nodeLines]
  | script kind attributes span => simp only [unplaced, nodeLines]
  | element e =>
      rw [unplaced, nodeLines, nodeLines]
      rfl

theorem nodesLines_unplacedOf (depth : Nat) (ns : List Node) :
    nodesLines depth (unplacedOf ns) = nodesLines depth ns := by
  cases ns with
  | nil => rfl
  | cons n ns =>
      rw [unplacedOf, nodesLines, nodesLines, nodeLines_unplaced depth n,
        nodesLines_unplacedOf depth ns]

end

theorem render_unplaced (layout : Layout) (d : Document) :
    render layout d.unplaced = render layout d := by
  have himports : (headImports d.unplaced.nodes).flatMap (importLines 2) =
      (headImports d.nodes).flatMap (importLines 2) := by
    rw [d.nodes_unplaced, headImports_unplaced, List.flatMap_map]
    simp only [importLines_unplaced]
  have htitle : title? d.unplaced.nodes = title? d.nodes := by
    rw [d.nodes_unplaced, title?_unplaced]
  have hbody : nodesLines 2 d.unplaced.nodes = nodesLines 2 d.nodes :=
    nodesLines_unplacedOf 2 d.nodes
  simp only [render, pageLines, headLines, himports, htitle, hbody]

end Html

namespace Document

variable (d : Document) (base : Path) (load : Loader) (config : Config)

theorem html_compile_unplaced :
    (d.unplaced.compile base load config).html = (d.compile base load config).html := by
  simp only [compile]
  split
  · rw [resolve_unplaced, Html.render_unplaced]
  · rw [Html.render_unplaced]

theorem diagnostics_compile_unplaced :
    (d.unplaced.compile base load config).diagnostics.map Diagnostic.unplaced =
      (d.compile base load config).diagnostics.map Diagnostic.unplaced := by
  simp only [compile]
  split
  · exact d.resolutionWarnings_unplaced base load
  · rfl

end Document

end EnglishPages
