import EnglishPages.Document.Resolution
import EnglishPages.Proofs.DocumentShape

/-!
What resolving imports changes. The imports that a document lists stand at the top level or directly
in a function there. Each of them is compiled by itself, from its own path, and nothing else in the
document changes at any depth; the warnings come in the order of the listed imports. Since the paths
stay, resolving again finds the same sources and changes nothing.

A place in a document is an address: the number of a statement among its siblings, for each level
from the top inward.
-/

namespace EnglishPages

namespace Import

variable (base : Path) (load : Loader)

def resolved (i : Import) : Import :=
  match i.path with
  | none => i
  | some path =>
      match Dialect.ofPath? ⟨path⟩, load (base.join ⟨path⟩) with
      | some d, .ok source =>
          { i with type := some d.sourceExtension, compiled := some (d.compile source) }
      | _, _ => i

/-- The warning for an import that has no path, or has a dialect and no source. -/
def warning? (i : Import) : Option Diagnostic :=
  match i.path with
  | none =>
      some ⟨"ENG2002", .warning, "import has no [path]; nothing will be emitted for it",
        some i.span, none⟩
  | some path =>
      match Dialect.ofPath? ⟨path⟩, load (base.join ⟨path⟩) with
      | some d, .error e =>
          some ⟨"ENG2001", .warning, "could not compile " ++ path ++ ": " ++ e.message,
            some i.span, some [("dialect", d.sourceExtension), ("path", (base.join ⟨path⟩).text)]⟩
      | _, _ => none

theorem resolve_eq (i : Import) :
    i.resolve base load = (i.resolved base load, (i.warning? base load).toList) := by
  obtain ⟨type, path, compiled, span⟩ := i
  cases path with
  | none => rfl
  | some path =>
      simp only [resolve, resolved, warning?, dialect?, Option.bind_some]
      cases Dialect.ofPath? ⟨path⟩ with
      | none => rfl
      | some d => cases load (base.join ⟨path⟩) <;> rfl

theorem path_resolved (i : Import) : (i.resolved base load).path = i.path := by
  obtain ⟨type, path, compiled, span⟩ := i
  cases path with
  | none => rfl
  | some path =>
      simp only [resolved]
      split <;> rfl

theorem span_resolved (i : Import) : (i.resolved base load).span = i.span := by
  obtain ⟨type, path, compiled, span⟩ := i
  cases path with
  | none => rfl
  | some path =>
      simp only [resolved]
      split <;> rfl

theorem resolved_resolved (i : Import) :
    (i.resolved base load).resolved base load = i.resolved base load := by
  obtain ⟨type, path, compiled, span⟩ := i
  cases path with
  | none => rfl
  | some path =>
      cases hdialect : Dialect.ofPath? ⟨path⟩ with
      | none => simp [resolved, hdialect]
      | some d => cases hload : load (base.join ⟨path⟩) <;> simp [resolved, hdialect, hload]

theorem warning?_resolved (i : Import) :
    (i.resolved base load).warning? base load = i.warning? base load := by
  rw [warning?, path_resolved, span_resolved]
  rfl

end Import

namespace Node

def at? (n : Node) : List Nat → Option Node
  | [] => some n
  | k :: address => n.children[k]?.bind fun child => child.at? address

end Node

namespace Document

def at? (d : Document) : List Nat → Option Node
  | [] => none
  | k :: address => d.nodes[k]?.bind fun n => n.at? address

/-- The addresses at the top level and directly in a function there. -/
def lists (d : Document) : List Nat → Bool
  | [_] => true
  | [k, _] => d.nodes[k]?.any Node.isFunction
  | _ => false

end Document

def Header.mapImport (f : Import → Import) : Header → Header
  | leaf (.importing i) => .leaf (.importing (f i))
  | h => h

namespace Node

variable (base : Path) (load : Loader)

theorem header_resolveImport (n : Node) :
    (n.resolveImport base load).header = n.header.mapImport (Import.resolved base load) := by
  cases n with
  | importing i => simp only [resolveImport, header, Header.mapImport, Import.resolve_eq]
  | page | function | title | script | element => rfl

theorem children_resolveImport (n : Node) :
    (n.resolveImport base load).children = n.children := by
  cases n <;> rfl

theorem header_resolve (n : Node) :
    (n.resolve base load).header = n.header.mapImport (Import.resolved base load) := by
  cases n with
  | importing i => exact header_resolveImport base load (.importing i)
  | page | function | title | script | element => rfl

theorem children_resolve (n : Node) :
    (n.resolve base load).children =
      if n.isFunction then n.children.map (resolveImport base load) else n.children := by
  cases n <;> rfl

theorem at?_resolveImport (n : Node) (k : Nat) (address : List Nat) :
    (n.resolveImport base load).at? (k :: address) = n.at? (k :: address) := by
  rw [at?, at?, children_resolveImport]

theorem header_at?_resolve (n : Node) (k : Nat) (address : List Nat) :
    ((n.resolve base load).at? (k :: address)).map header =
      (n.at? (k :: address)).map fun m =>
        if n.isFunction && address.isEmpty then m.header.mapImport (Import.resolved base load)
        else m.header := by
  rw [at?, at?, children_resolve]
  by_cases hn : n.isFunction = true
  · rw [if_pos hn, hn, List.getElem?_map]
    cases n.children[k]? with
    | none => rfl
    | some child =>
        cases address with
        | nil => exact congrArg some (child.header_resolveImport base load)
        | cons l address =>
            exact congrArg (Option.map header) (child.at?_resolveImport base load l address)
  · rw [if_neg hn, Bool.eq_false_iff.2 hn]
    rfl

end Node

namespace Document

variable (d : Document) (base : Path) (load : Loader)

theorem header_at?_resolve (address : List Nat) :
    ((d.resolve base load).at? address).map Node.header =
      (d.at? address).map fun n =>
        if d.lists address then n.header.mapImport (Import.resolved base load) else n.header := by
  cases address with
  | nil => rfl
  | cons k address =>
      simp only [at?, resolve, List.getElem?_map]
      cases hk : d.nodes[k]? with
      | none => rfl
      | some n =>
          cases address with
          | nil => exact congrArg some (n.header_resolve base load)
          | cons l address =>
              have hlists : d.lists (k :: l :: address) = (n.isFunction && address.isEmpty) := by
                cases address with
                | nil => simp [lists, hk]
                | cons m address => simp [lists]
              rw [hlists]
              exact n.header_at?_resolve base load l address

end Document

namespace Node

variable (base : Path) (load : Loader)

theorem mem_functionBody {n m : Node} :
    m ∈ n.functionBody ↔ n.isFunction = true ∧ m ∈ n.children := by
  cases n <;> simp [functionBody, isFunction, children]

theorem import?_resolveImport (n : Node) :
    (n.resolveImport base load).import? = n.import?.map (Import.resolved base load) := by
  cases n with
  | importing i => exact congrArg some (congrArg Prod.fst (i.resolve_eq base load))
  | page | function | title | script | element => rfl

theorem import?_resolve (n : Node) :
    (n.resolve base load).import? = n.import?.map (Import.resolved base load) := by
  cases n with
  | importing i => exact import?_resolveImport base load (.importing i)
  | page | function | title | script | element => rfl

theorem functionBody_resolve (n : Node) :
    (n.resolve base load).functionBody = n.functionBody.map (resolveImport base load) := by
  cases n <;> rfl

theorem importWarnings_eq (n : Node) :
    n.importWarnings base load = (n.import?.bind (Import.warning? base load)).toList := by
  cases n with
  | importing i => exact congrArg Prod.snd (i.resolve_eq base load)
  | page | function | title | script | element => rfl

theorem flatMap_importWarnings (ns : List Node) :
    ns.flatMap (importWarnings base load) =
      (ns.filterMap import?).filterMap (Import.warning? base load) := by
  induction ns with
  | nil => rfl
  | cons n ns ih =>
      rw [List.flatMap_cons, ih, importWarnings_eq, List.filterMap_filterMap,
        List.filterMap_filterMap, List.filterMap_cons]
      cases n.import?.bind (Import.warning? base load) <;> rfl

theorem resolutionWarnings_eq (n : Node) :
    n.resolutionWarnings base load =
      ((n :: n.functionBody).filterMap import?).filterMap (Import.warning? base load) := by
  rw [← flatMap_importWarnings, List.flatMap_cons]
  cases n with
  | importing i => exact (List.append_nil _).symm
  | page | function | title | script | element => rfl

theorem resolveImport_resolveImport (n : Node) :
    (n.resolveImport base load).resolveImport base load = n.resolveImport base load := by
  cases n with
  | importing i => simp only [resolveImport, Import.resolve_eq, Import.resolved_resolved]
  | page | function | title | script | element => rfl

theorem resolve_resolve (n : Node) :
    (n.resolve base load).resolve base load = n.resolve base load := by
  cases n with
  | function name children span =>
      simp only [resolve, List.map_map]
      congr 1
      exact List.map_congr_left fun m _ => m.resolveImport_resolveImport base load
  | importing i => exact resolveImport_resolveImport base load (.importing i)
  | page | title | script | element => rfl

end Node

namespace Document

variable (d : Document) (base : Path) (load : Loader)

theorem mem_imports_iff (i : Import) :
    i ∈ d.imports ↔ ∃ address, d.lists address = true ∧ d.at? address = some (.importing i) := by
  simp only [imports, List.mem_flatMap, List.mem_filterMap, Node.import?_eq_some]
  constructor
  · rintro ⟨n, hn, m, hm, rfl⟩
    obtain ⟨k, hk⟩ := List.mem_iff_getElem?.1 hn
    rcases List.mem_cons.1 hm with rfl | hm
    · exact ⟨[k], rfl, by simp [at?, Node.at?, hk]⟩
    · obtain ⟨hfunction, hm⟩ := Node.mem_functionBody.1 hm
      obtain ⟨l, hl⟩ := List.mem_iff_getElem?.1 hm
      exact ⟨[k, l], by simp [lists, hk, hfunction], by simp [at?, Node.at?, hk, hl]⟩
  · rintro ⟨address, hlists, hat⟩
    match address with
    | [] => cases hlists
    | [k] =>
        obtain ⟨n, hk, hn⟩ := Option.bind_eq_some_iff.1 hat
        obtain rfl := Option.some.inj hn
        exact ⟨_, List.mem_of_getElem? hk, _, List.mem_cons_self, rfl⟩
    | [k, l] =>
        obtain ⟨n, hk, hn⟩ := Option.bind_eq_some_iff.1 hat
        obtain ⟨m, hl, hm⟩ := Option.bind_eq_some_iff.1 hn
        obtain rfl := Option.some.inj hm
        have hfunction : n.isFunction = true := by simpa [lists, hk] using hlists
        exact ⟨n, List.mem_of_getElem? hk, _, List.mem_cons_of_mem n
          (Node.mem_functionBody.2 ⟨hfunction, List.mem_of_getElem? hl⟩), rfl⟩
    | _ :: _ :: _ :: _ => cases hlists

theorem imports_resolve :
    (d.resolve base load).imports = d.imports.map (Import.resolved base load) := by
  simp only [imports, resolve, List.flatMap_map, List.map_flatMap]
  congr 1
  funext n
  have hbody : Node.import? ∘ Node.resolveImport base load =
      fun m => m.import?.map (Import.resolved base load) :=
    funext fun m => m.import?_resolveImport base load
  rw [List.map_filterMap, List.filterMap_cons, List.filterMap_cons, Node.import?_resolve,
    Node.functionBody_resolve, List.filterMap_map, hbody]

theorem resolutionWarnings_eq :
    d.resolutionWarnings base load = d.imports.filterMap (Import.warning? base load) := by
  simp only [imports, resolutionWarnings, List.filterMap_flatMap]
  congr 1
  funext n
  exact n.resolutionWarnings_eq base load

theorem resolve_resolve : (d.resolve base load).resolve base load = d.resolve base load := by
  simp only [resolve, List.map_map]
  congr 1
  exact List.map_congr_left fun n _ => n.resolve_resolve base load

/-- Resolving changes the listed imports, each from its own path, and nothing else; the listed
imports of the result are those of the document, resolved, and the warnings are theirs, in their
order. Resolving again changes nothing and warns of the same. -/
theorem resolve_frame :
    (∀ address, ((d.resolve base load).at? address).map Node.header =
      (d.at? address).map fun n =>
        if d.lists address then n.header.mapImport (Import.resolved base load) else n.header) ∧
    (∀ i, i ∈ d.imports ↔
      ∃ address, d.lists address = true ∧ d.at? address = some (.importing i)) ∧
    (d.resolve base load).imports = d.imports.map (Import.resolved base load) ∧
    d.resolutionWarnings base load = d.imports.filterMap (Import.warning? base load) ∧
    (d.resolve base load).resolve base load = d.resolve base load ∧
    (d.resolve base load).resolutionWarnings base load = d.resolutionWarnings base load := by
  have hwarning : Import.warning? base load ∘ Import.resolved base load =
      Import.warning? base load := funext fun i => i.warning?_resolved base load
  have hagain : (d.resolve base load).resolutionWarnings base load =
      d.resolutionWarnings base load := by
    rw [resolutionWarnings_eq, imports_resolve, List.filterMap_map, hwarning,
      resolutionWarnings_eq]
  exact ⟨d.header_at?_resolve base load, d.mem_imports_iff, d.imports_resolve base load,
    d.resolutionWarnings_eq base load, d.resolve_resolve base load, hagain⟩

end Document

end EnglishPages
