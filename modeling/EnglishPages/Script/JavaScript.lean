import EnglishPages.Script.Block
import EnglishPages.Script.Idiom
import EnglishPages.Script.Statement
import EnglishPages.Text.Lines
import EnglishPages.Verbatim

/-!
The script dialect to JavaScript. The source has neither braces nor indentation: a header line opens
a block, and a blank line, a header that cannot stand inside the open blocks, or the end of the
source closes it.

Reading goes line by line. `step` takes the open blocks and one line to the new open blocks and the
lines written; the output is what the steps write, one after another, and the closing lines of what
is open at the end.
-/

namespace EnglishPages.Script

open Text

def withoutComment : List Char → List Char
  | [] => []
  | '-' :: '-' :: _ => []
  | c :: cs => c :: withoutComment cs

def processedLines (source : List Char) : List (List Char) :=
  (lines (expandIdioms source)).map fun line => trim (withoutComment line)

namespace BlockStack

/-- Whether a method header may stand here: directly inside a class, or after the body of one of
its methods. -/
def inClassBody (s : BlockStack) : Bool :=
  s.contains .classBody && (s.innermost? == some .classBody || s.innermost? == some .method)

def reopening (closed : BlockStack × List String) (k : BlockKind) (header : String) :
    BlockStack × List String :=
  let opened := closed.1.opening k header
  (opened.1, closed.2 ++ opened.2)

def perform (s : BlockStack) : Statement → BlockStack × List String
  | .blank => s.closeInnermost
  | .functionHeader name parameters =>
      reopening s.closeAll .function ("function " ++ name ++ "(" ++ parameters ++ ") \x7b")
  | .methodHeader isStatic name parameters =>
      reopening (s.closeWhile (· == .method)) .method
        ((if isStatic then "static " else "") ++ name ++ "(" ++ parameters ++ ") \x7b")
  | .explicitHeader header => s.opening .explicit header
  | .classHeader name => reopening s.closeAll .classBody ("class " ++ name ++ " \x7b")
  | .eventHeader target event parameters =>
      s.opening .event
        (target ++ ".addEventListener('" ++ event ++ "', (" ++ parameters ++ ") => \x7b")
  | .conditionalHeader condition => s.opening .conditional ("if (" ++ condition ++ ") \x7b")
  | .alternativeHeader =>
      if s.innermost? = some .conditional then s.chain .alternative "\x7d else \x7b"
      else s.opening .alternative "else \x7b"
  | .loopHeader condition => s.opening .loop ("while (" ++ condition ++ ") \x7b")
  | .simple code => (s, [code])

/-- One line. A class does not stay open across a line of the top level. -/
def step (s : BlockStack) (line : List Char) : BlockStack × List String :=
  let left := if s.contains .classBody && Statement.isTopLevel line then s.closeAll else (s, [])
  let done := left.1.perform (Statement.read left.1.inClassBody line)
  (done.1, left.2 ++ done.2)

def run (s : BlockStack) : List (List Char) → List String
  | [] => s.closeAll.2
  | line :: rest => (s.step line).2 ++ run (s.step line).1 rest

def after (s : BlockStack) (ls : List (List Char)) : BlockStack :=
  ls.foldl (fun s line => (s.step line).1) s

theorem run_cons (s : BlockStack) (line : List Char) (rest : List (List Char)) :
    s.run (line :: rest) = (s.step line).2 ++ (s.step line).1.run rest := rfl

theorem after_append (s : BlockStack) (ls ms : List (List Char)) :
    s.after (ls ++ ms) = (s.after ls).after ms := by
  simp [after]

end BlockStack

def scriptLines (source : List Char) : List String :=
  BlockStack.empty.run (processedLines source)

def toJavaScript (source : String) : String :=
  match Verbatim.body? source.toList with
  | some body => String.ofList body
  | none => terminated (scriptLines source.toList)

theorem toJavaScript_of_none {source : String} (h : Verbatim.body? source.toList = none) :
    toJavaScript source = terminated (BlockStack.empty.run (processedLines source.toList)) := by
  simp only [toJavaScript, h, scriptLines]

end EnglishPages.Script
