import EnglishPages.Proofs.Relocation

/-!
Statements apart from their places. Forgetting where the tokens of a list stand changes neither
which of them the scan takes for a statement nor what it makes of them: it forgets where the
statements stand, and in an error where the error is. Nesting the headers then goes the same way.
-/

namespace EnglishPages

def Token.unplaced (t : Token) : Token :=
  { t with line := 0, column := 0, span := .empty 0 }

def Leaf.unplaced : Leaf → Leaf
  | importing i => .importing { i with span := .empty 0 }
  | title content _ => .title content (.empty 0)
  | script kind attributes _ => .script kind attributes (.empty 0)
  | element e => .element { e with span := .empty 0 }

def Header.unplaced : Header → Header
  | page _ => .page (.empty 0)
  | function name _ => .function name (.empty 0)
  | leaf l => .leaf l.unplaced

namespace Node

mutual

def unplaced : Node → Node
  | page children _ => .page (unplacedOf children) (.empty 0)
  | function name children _ => .function name (unplacedOf children) (.empty 0)
  | importing i => .importing { i with span := .empty 0 }
  | title content _ => .title content (.empty 0)
  | script kind attributes _ => .script kind attributes (.empty 0)
  | element e => .element { e with span := .empty 0 }

def unplacedOf : List Node → List Node
  | [] => []
  | node :: nodes => unplaced node :: unplacedOf nodes

end

end Node

def Document.unplaced (d : Document) : Document := ⟨Node.unplacedOf d.nodes⟩

def Outline.unplaced (o : Outline) : Outline :=
  ⟨Node.unplacedOf o.body, Node.unplacedOf o.functions⟩

theorem Leaf.relocated_nowhere (l : Leaf) : Relocation.nowhere.leaf l = l.unplaced := by
  cases l <;> rfl

theorem Header.relocated_nowhere : Relocation.nowhere.header = Header.unplaced := by
  funext h
  cases h with
  | page span => rfl
  | function name span => rfl
  | leaf l => exact congrArg Header.leaf l.relocated_nowhere

namespace Node

mutual

theorem relocated_nowhere (n : Node) : Relocation.nowhere.node n = n.unplaced := by
  cases n with
  | page children span | function name children span =>
      rw [Relocation.node, unplaced, relocatedOf_nowhere children]
      rfl
  | importing | title | script | element =>
      rw [Relocation.node, unplaced]
      rfl

theorem relocatedOf_nowhere (ns : List Node) : Relocation.nowhere.nodes ns = unplacedOf ns := by
  match ns with
  | [] => rw [Relocation.nodes, unplacedOf]
  | n :: ns => rw [Relocation.nodes, unplacedOf, relocated_nowhere n, relocatedOf_nowhere ns]

end

end Node

namespace Outline

theorem relocated_nowhere (o : Outline) : Relocation.nowhere.outline o = o.unplaced := by
  rw [Relocation.outline, Node.relocatedOf_nowhere, Node.relocatedOf_nowhere, unplaced]

theorem nodes_unplaced (o : Outline) : o.unplaced.nodes = Node.unplacedOf o.nodes := by
  rw [← relocated_nowhere, Relocation.nodes_outline, Node.relocatedOf_nowhere]

theorem unplaced_nest (hs : List Header) :
    (nest hs).unplaced = nest (hs.map Header.unplaced) := by
  rw [← relocated_nowhere, Relocation.outline_nest, Header.relocated_nowhere]

end Outline

namespace Scan

theorem extent_unplaced (t : Token) (ts : List Token) :
    extent t.unplaced (ts.map Token.unplaced) = .empty 0 :=
  extent_relocated .nowhere t ts

theorem headers_unplaced (eof : Token) (ts : List Token) :
    headers eof.unplaced (ts.map Token.unplaced) =
      Relocation.nowhere.result (List.map Header.unplaced) (headers eof ts) := by
  rw [← Header.relocated_nowhere]
  exact headers_relocated .nowhere eof ts

end Scan

end EnglishPages
