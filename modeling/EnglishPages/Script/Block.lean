/-!
Blocks of a generated script. A block is opened by a header line and closed by a line of its own
kind; the stack of open blocks decides which closing lines are still owed. Every operation returns
the new stack together with the lines that it writes, so that a run of operations is a run of
lines.
-/

namespace EnglishPages.Script

/-- The kinds of block, by what opens them. An explicit block is opened by a source line that
already ends in a brace. -/
inductive BlockKind where
  | function
  | classBody
  | method
  | event
  | conditional
  | alternative
  | loop
  | explicit
  deriving DecidableEq, Repr, Inhabited

namespace BlockKind

def all : List BlockKind :=
  [function, classBody, method, event, conditional, alternative, loop, explicit]

def name : BlockKind → String
  | function => "function"
  | classBody => "class"
  | method => "method"
  | event => "event"
  | conditional => "if"
  | alternative => "else"
  | loop => "loop"
  | explicit => "block"

/-- The line that closes a block. An event handler is the last argument of a call, so its line
ends the call too. -/
def closer : BlockKind → String
  | event => "\x7d);"
  | _ => "\x7d"

theorem mem_all (k : BlockKind) : k ∈ all := by
  cases k <;> decide

end BlockKind

structure BlockStack where
  kinds : List BlockKind
  deriving DecidableEq, Repr, Inhabited

namespace BlockStack

def empty : BlockStack := ⟨[]⟩

def innermost? (s : BlockStack) : Option BlockKind :=
  s.kinds.head?

def contains (s : BlockStack) (k : BlockKind) : Bool :=
  s.kinds.contains k

def depth (s : BlockStack) : Nat :=
  s.kinds.length

def opening (s : BlockStack) (k : BlockKind) (header : String) : BlockStack × List String :=
  (⟨k :: s.kinds⟩, [header])

def closeInnermost (s : BlockStack) : BlockStack × List String :=
  match s.kinds with
  | [] => (s, [])
  | k :: ks => (⟨ks⟩, [k.closer])

def closeWhile (s : BlockStack) (p : BlockKind → Bool) : BlockStack × List String :=
  (⟨s.kinds.dropWhile p⟩, (s.kinds.takeWhile p).map BlockKind.closer)

def closeAll (s : BlockStack) : BlockStack × List String :=
  (empty, s.kinds.map BlockKind.closer)

/-- Replaces the innermost block by a new one. The one header line is the closing line of the old
block and the opening line of the new. -/
def chain (s : BlockStack) (k : BlockKind) (header : String) : BlockStack × List String :=
  (⟨k :: s.kinds.tail⟩, [header])

@[simp]
theorem depth_opening (s : BlockStack) (k : BlockKind) (header : String) :
    (s.opening k header).1.depth = s.depth + 1 := rfl

@[simp]
theorem depth_closeInnermost (s : BlockStack) :
    s.closeInnermost.1.depth = s.depth - 1 := by
  obtain ⟨ks⟩ := s
  cases ks <;> rfl

@[simp]
theorem depth_closeAll (s : BlockStack) : s.closeAll.1.depth = 0 := rfl

theorem closeWhile_append (s : BlockStack) (p : BlockKind → Bool) :
    (s.closeWhile p).2 ++ (s.closeWhile p).1.closeAll.2 = s.closeAll.2 := by
  simp only [closeWhile, closeAll, ← List.map_append, List.takeWhile_append_dropWhile]

end BlockStack

end EnglishPages.Script
