import EnglishPages.Proofs.FlatScan
import EnglishPages.Proofs.TokenTiling

/-!
Sources and statements in other places. The lexer counts the bytes from where it starts, so the same
text gives the same tokens anywhere up to their places. The scan looks at the kinds and the values
of tokens, and only carries their places over to the statements: it joins the spans of the first and
of the last token that it takes. So a map of spans that keeps joins can be applied to the tokens or
to what was read from them. Lines and columns stand in errors alone, and no two of them are joined.
-/

namespace EnglishPages

/-- A map of places. Of spans, it keeps joins. -/
structure Relocation where
  span : Span → Span
  line : Nat → Nat
  column : Nat → Nat
  span_join : ∀ a b, span (a.join b) = (span a).join (span b)

namespace Relocation

def nowhere : Relocation where
  span _ := .empty 0
  line _ := 0
  column _ := 0
  span_join _ _ := rfl

/-- The first `n` bytes of the source are cut off, and the lines and columns forgotten. -/
def back (n : Nat) : Relocation where
  span s := ⟨s.start - n, s.stop - n⟩
  line _ := 0
  column _ := 0
  span_join a b := by simp only [Span.join, Nat.sub_min_sub_right, Nat.sub_max_sub_right]

def onward (bytes lines : Nat) : Relocation where
  span s := ⟨s.start + bytes, s.stop + bytes⟩
  line l := l + lines
  column c := c
  span_join a b := by simp only [Span.join, Nat.add_min_add_right, Nat.add_max_add_right]

/-- Below a source: the places of another that stands behind it and a line end. -/
def below (source : String) : Relocation :=
  .onward (source.utf8ByteSize + 1) (source.toList.count '\n' + 1)

variable (r : Relocation)

def position (p : Position) : Position :=
  ⟨(r.span (.empty p.offset)).start, r.line p.line, r.column p.column⟩

def token (t : Token) : Token :=
  { t with line := r.line t.line, column := r.column t.column, span := r.span t.span }

def error (e : ParseError) : ParseError :=
  { e with line := r.line e.line, column := r.column e.column, span := r.span e.span }

def leaf : Leaf → Leaf
  | .importing i => .importing { i with span := r.span i.span }
  | .title content span => .title content (r.span span)
  | .script kind attributes span => .script kind attributes (r.span span)
  | .element e => .element { e with span := r.span e.span }

def header : Header → Header
  | .page span => .page (r.span span)
  | .function name span => .function name (r.span span)
  | .leaf l => .leaf (r.leaf l)

mutual

def node : Node → Node
  | .page children span => .page (nodes children) (r.span span)
  | .function name children span => .function name (nodes children) (r.span span)
  | .importing i => .importing { i with span := r.span i.span }
  | .title content span => .title content (r.span span)
  | .script kind attributes span => .script kind attributes (r.span span)
  | .element e => .element { e with span := r.span e.span }

def nodes : List Node → List Node
  | [] => []
  | n :: ns => node n :: nodes ns

end

def reading (x : Option Header × List Token) : Option Header × List Token :=
  (x.1.map r.header, x.2.map r.token)

def result {α : Type} (f : α → α) : Except ParseError α → Except ParseError α
  | .ok a => .ok (f a)
  | .error e => .error (r.error e)

theorem header_back_zero (h : Header) : (back 0).header h = h := by
  cases h with
  | page span => rfl
  | function name span => rfl
  | leaf l => cases l <;> rfl

theorem nodes_append (ns ms : List Node) : r.nodes (ns ++ ms) = r.nodes ns ++ r.nodes ms := by
  induction ns with
  | nil => rfl
  | cons n ns ih => simp only [List.cons_append, nodes, ih]

theorem node_leaf (l : Leaf) : r.node l.node = (r.leaf l).node := by
  cases l <;> simp only [Leaf.node, leaf, node]

def outline (o : Outline) : Outline :=
  ⟨r.nodes o.body, r.nodes o.functions⟩

theorem nodes_outline (o : Outline) : (r.outline o).nodes = r.nodes o.nodes :=
  (r.nodes_append o.body o.functions).symm

theorem outline_prepend (o : Outline) (h : Header) :
    r.outline (o.prepend h) = (r.outline o).prepend (r.header h) := by
  cases h with
  | page span => simp only [Outline.prepend, header, outline, nodes, node, ← nodes_outline]
  | function name span => simp only [Outline.prepend, header, outline, nodes, node]
  | leaf l => simp only [Outline.prepend, header, outline, nodes, node_leaf]

theorem outline_nest (hs : List Header) :
    r.outline (Outline.nest hs) = Outline.nest (hs.map r.header) := by
  induction hs with
  | nil => rfl
  | cons h hs ih => rw [Outline.nest_cons, outline_prepend, ih, List.map_cons, Outline.nest_cons]

end Relocation

theorem Token.relocated_scanFrom {r r' : Relocation} {p q : Position}
    (h : ∀ i j, r.span ⟨p.offset + i, p.offset + j⟩ = r'.span ⟨q.offset + i, q.offset + j⟩)
    (hline : ∀ l l', r.line l = r'.line l') (hcolumn : ∀ c c', r.column c = r'.column c')
    (skip : Nat) (cs : List Char) :
    (scanFrom skip p cs).map r.token = (scanFrom skip q cs).map r'.token := by
  induction cs generalizing skip p q with
  | nil =>
      rw [scanFrom_nil, scanFrom_nil]
      simp only [List.map_cons, List.map_nil, Relocation.token]
      rw [hline _ q.line, hcolumn _ q.column]
      exact congrArg (fun s => [Token.mk .endOfInput "" _ _ s]) (h 0 0)
  | cons c cs ih =>
      have hnext : ∀ i j, r.span ⟨(p.advance c).offset + i, (p.advance c).offset + j⟩ =
          r'.span ⟨(q.advance c).offset + i, (q.advance c).offset + j⟩ := by
        intro i j
        simp only [Position.offset_advance, Nat.add_assoc]
        exact h _ _
      cases skip with
      | succ skip => exact ih hnext skip
      | zero =>
          rw [scanFrom, scanFrom]
          cases lexeme? (c :: cs) with
          | none => exact ih hnext 0
          | some l =>
              have hspan := h 0 (Text.byteLength l.text)
              rw [← p.offset_advanceAll, ← q.offset_advanceAll] at hspan
              simp only [List.map_cons, ih hnext (l.text.length - 1), Relocation.token]
              rw [hline _ q.line, hcolumn _ q.column]
              exact congrArg (fun s => Token.mk l.kind l.value _ _ s :: _) hspan

namespace Scan

variable (r : Relocation)

theorem leading_relocated {p : Token → Bool} (hp : ∀ t : Token, p (r.token t) = p t)
    (ts : List Token) : leading p (ts.map r.token) = (leading p ts).map r.token := by
  have hcomp : p ∘ r.token = p := funext hp
  rw [leading, leading, ← List.map_take, List.filter_map, hcomp]

theorem withPhrase_relocated (ts : List Token) :
    withPhrase (ts.map r.token) = (withPhrase ts).map r.token := by
  cases ts with
  | nil => rfl
  | cons t ts =>
      have hcomp : isAttribute ∘ r.token = isAttribute := rfl
      have hwith : (r.token t).isKeyword "with" = t.isKeyword "with" := rfl
      rw [List.map_cons, withPhrase, withPhrase, hwith, List.takeWhile_map, hcomp]
      split
      · rfl
      · rfl

theorem attributeWords_relocated (phrase : List Token) :
    attributeWords (phrase.map r.token) = attributeWords phrase := by
  rw [attributeWords, attributeWords, ← List.map_tail, List.map_map]
  rfl

theorem text?_relocated (ts : List Token) : text? (ts.map r.token) = text? ts := by
  rw [text?, text?, List.head?_map, Option.map_map]
  rfl

theorem extent_relocated (t : Token) (ts : List Token) :
    extent (r.token t) (ts.map r.token) = r.span (extent t ts) := by
  have hlast : lastSpan (r.token t).span (ts.map r.token) = r.span (lastSpan t.span ts) := by
    rw [lastSpan, lastSpan, List.getLast?_map]
    cases ts.getLast? <;> rfl
  rw [extent, hlast, extent, r.span_join]
  rfl

theorem pathPhrase_relocated (ts : List Token) :
    pathPhrase (ts.map r.token) = (pathPhrase ts).map r.token := by
  rw [pathPhrase, pathPhrase, leading_relocated r fun _ => rfl, ← List.map_drop,
    leading_relocated r fun _ => rfl]
  cases leading (hasKind .path) ts with
  | nil => rfl
  | cons t paths => exact List.map_append.symm

theorem path?_relocated (ts : List Token) : path? (ts.map r.token) = path? ts := by
  match ts with
  | [] => rfl
  | [_] => rfl
  | _ :: _ :: _ => rfl

def ImportPhrase.relocated (p : ImportPhrase) : ImportPhrase :=
  ⟨p.type.map r.token, p.linking.map r.token, p.path.map r.token⟩

theorem importPhrase_relocated (ts : List Token) :
    importPhrase (ts.map r.token) = (importPhrase ts).relocated r := by
  simp only [importPhrase, ImportPhrase.relocated,
    leading_relocated r (p := fun t => t.isWord && !Cursor.isFrom t) fun _ => rfl,
    leading_relocated r (p := Cursor.isFrom) fun _ => rfl,
    List.length_map, ← List.map_drop, pathPhrase_relocated]

theorem tokens_relocated (p : ImportPhrase) : (p.relocated r).tokens = p.tokens.map r.token := by
  simp only [ImportPhrase.tokens, ImportPhrase.relocated, List.map_append]

theorem create_relocated (t : Token) (ts : List Token) :
    create (r.token t) (ts.map r.token) = r.reading (create t ts) := by
  rw [create, create, leading_relocated r fun _ => rfl]
  cases leading (·.isKeyword "page") ts with
  | nil => rfl
  | cons u used =>
      have hextent := extent_relocated r t (u :: used)
      simp only [List.map_cons] at hextent ⊢
      rw [hextent]
      rfl

theorem function_relocated (t : Token) (ts : List Token) :
    function (r.token t) (ts.map r.token) = r.reading (function t ts) := by
  simp only [function, leading_relocated r (p := hasKind .identifier) fun _ => rfl,
    text?_relocated, extent_relocated]
  rfl

theorem importing_relocated (t : Token) (ts : List Token) :
    importing (r.token t) (ts.map r.token) = r.reading (importing t ts) := by
  simp only [importing, importPhrase_relocated, tokens_relocated, extent_relocated]
  simp only [ImportPhrase.relocated, text?_relocated, path?_relocated]
  rfl

theorem title_relocated (t : Token) (ts : List Token) :
    title (r.token t) (ts.map r.token) = r.reading (title t ts) := by
  simp only [title, leading_relocated r (p := hasKind .string) fun _ => rfl, text?_relocated,
    extent_relocated]
  rfl

theorem script_relocated (kind : ScriptKind) (t : Token) (ts : List Token) :
    script kind (r.token t) (ts.map r.token) = r.reading (script kind t ts) := by
  simp only [script, withPhrase_relocated, attributeWords_relocated, extent_relocated]
  rfl

theorem add_relocated (eof t : Token) (ts : List Token) :
    add (r.token eof) (r.token t) (ts.map r.token) = r.result r.reading (add eof t ts) := by
  cases ts with
  | nil => rfl
  | cons word ts =>
      have hword : (r.token word).isWord = word.isWord := rfl
      have hvalue : (r.token word).value = word.value := rfl
      rw [List.map_cons, add, add, hword, hvalue]
      split
      · simp only [leading_relocated r (p := hasKind .string) fun _ => rfl, List.length_map,
          ← List.map_drop, withPhrase_relocated, attributeWords_relocated, text?_relocated,
          ← List.map_append, ← List.map_cons, extent_relocated]
        split
        · rfl
        · rfl
      · rfl

theorem header_relocated (eof t : Token) (ts : List Token) :
    header (r.token eof) (r.token t) (ts.map r.token) = r.result r.reading (header eof t ts) := by
  have hkind : (r.token t).kind = t.kind := rfl
  have hvalue : (r.token t).value = t.value := rfl
  rw [header, header, hkind, hvalue, create_relocated, add_relocated, function_relocated,
    importing_relocated, title_relocated]
  split
  · rfl
  split
  · rfl
  split
  · rfl
  split
  · rfl
  split
  · rfl
  split
  · rfl
  cases ScriptKind.ofWord? t.value with
  | none => rfl
  | some kind => exact congrArg Except.ok (script_relocated r kind t ts)

theorem headersFrom_relocated (eof : Token) (skip : Nat) (ts : List Token) :
    headersFrom (r.token eof) skip (ts.map r.token) =
      r.result (List.map r.header) (headersFrom eof skip ts) := by
  induction ts generalizing skip with
  | nil => cases skip <;> rfl
  | cons t ts ih =>
      cases skip with
      | succ skip => exact ih skip
      | zero =>
          rw [List.map_cons, headersFrom, headersFrom, header_relocated]
          cases header eof t ts with
          | error e => rfl
          | ok x =>
              change headersFrom (r.token eof) (x.2.map r.token).length _ >>= _ =
                r.result _ (headersFrom eof x.2.length ts >>= _)
              rw [List.length_map, ih]
              cases headersFrom eof x.2.length ts with
              | error e => rfl
              | ok hs => cases x.1 <;> rfl

theorem headers_relocated (eof : Token) (ts : List Token) :
    headers (r.token eof) (ts.map r.token) = r.result (List.map r.header) (headers eof ts) :=
  headersFrom_relocated r eof 0 ts

end Scan

end EnglishPages
