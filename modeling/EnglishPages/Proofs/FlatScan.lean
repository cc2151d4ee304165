import EnglishPages.Document.Parser

/-!
A second reading of token lists, without recursion into pages and functions. The scan goes through
the tokens once, from left to right, and lists the headers that it meets; a page or a function is
its header alone. What holds what is decided afterwards, from the list of headers: a page takes
every header after it, and a function those up to the next function.

The scan says of every statement which tokens it takes, and places the statement from the first of
them to the last.
-/

namespace EnglishPages

inductive Leaf where
  | importing (statement : Import)
  | title (content : String) (span : Span)
  | script (kind : ScriptKind) (attributes : List String) (span : Span)
  | element (element : Element)
  deriving DecidableEq, Repr

def Leaf.node : Leaf → Node
  | importing i => .importing i
  | title content span => .title content span
  | script kind attributes span => .script kind attributes span
  | element e => .element e

/-- A statement without the statements in it. -/
inductive Header where
  | page (span : Span)
  | function (name : String) (span : Span)
  | leaf (leaf : Leaf)
  deriving DecidableEq, Repr

def Header.span : Header → Span
  | page span => span
  | function _ span => span
  | leaf l => l.node.span

namespace Node

def header : Node → Header
  | page _ span => .page span
  | function name _ span => .function name span
  | importing i => .leaf (.importing i)
  | title content span => .leaf (.title content span)
  | script kind attributes span => .leaf (.script kind attributes span)
  | element e => .leaf (.element e)

mutual

def headers : Node → List Header
  | page children span => .page span :: headersOf children
  | function name children span => .function name span :: headersOf children
  | importing i => [.leaf (.importing i)]
  | title content span => [.leaf (.title content span)]
  | script kind attributes span => [.leaf (.script kind attributes span)]
  | element e => [.leaf (.element e)]

def headersOf : List Node → List Header
  | [] => []
  | node :: nodes => headers node ++ headersOf nodes

end

theorem headersOf_append (ns ms : List Node) :
    headersOf (ns ++ ms) = headersOf ns ++ headersOf ms := by
  induction ns with
  | nil => rfl
  | cons n ns ih => rw [List.cons_append, headersOf, headersOf, ih, List.append_assoc]

theorem headers_leaf (l : Leaf) : headers l.node = [.leaf l] := by
  cases l <;> simp [Leaf.node, headers]

end Node

/-- Statements in two parts: those up to the next function, and that function with all that
follows it. -/
structure Outline where
  body : List Node
  functions : List Node

namespace Outline

def nodes (o : Outline) : List Node :=
  o.body ++ o.functions

def prepend (o : Outline) : Header → Outline
  | .page span => ⟨[.page o.nodes span], []⟩
  | .function name span => ⟨[], .function name o.body span :: o.functions⟩
  | .leaf l => ⟨l.node :: o.body, o.functions⟩

def nest (hs : List Header) : Outline :=
  hs.foldr (fun h o => o.prepend h) ⟨[], []⟩

theorem nest_cons (h : Header) (hs : List Header) : nest (h :: hs) = (nest hs).prepend h := rfl

theorem headersOf_prepend (o : Outline) (h : Header) :
    Node.headersOf (o.prepend h).nodes = h :: Node.headersOf o.nodes := by
  cases h <;> simp [prepend, nodes, Node.headersOf, Node.headers, Node.headersOf_append,
    Node.headers_leaf]

theorem headersOf_nest (hs : List Header) : Node.headersOf (nest hs).nodes = hs := by
  induction hs with
  | nil => rfl
  | cons h hs ih => rw [nest_cons, headersOf_prepend, ih]

end Outline

namespace Scan

def leading (p : Token → Bool) (ts : List Token) : List Token :=
  (ts.take 1).filter p

def isAttribute (t : Token) : Bool :=
  t.isWord && !Cursor.statementWords.contains t.value

def withPhrase : List Token → List Token
  | [] => []
  | t :: ts => if t.isKeyword "with" then t :: ts.takeWhile isAttribute else []

def attributeWords (phrase : List Token) : List String :=
  (phrase.tail.map Token.value).filter (· ≠ "and")

def text? (ts : List Token) : Option String :=
  ts.head?.map Token.value

def lastSpan (last : Span) (ts : List Token) : Span :=
  (ts.getLast?.map Token.span).getD last

def extent (first : Token) (others : List Token) : Span :=
  first.span.join (lastSpan first.span others)

def hasKind (kind : TokenKind) (t : Token) : Bool := t.kind == kind

def isExtension (t : Token) : Bool :=
  hasKind .identifier t && Cursor.pathExtensions.contains t.value

def pathPhrase (ts : List Token) : List Token :=
  match leading (hasKind .path) ts with
  | [] => []
  | paths => paths ++ leading isExtension (ts.drop 1)

def path? : List Token → Option String
  | [] => none
  | [p] => some p.value
  | p :: e :: _ => some (p.value ++ "." ++ e.value)

structure ImportPhrase where
  type : List Token
  linking : List Token
  path : List Token

def importPhrase (ts : List Token) : ImportPhrase :=
  let type := leading (fun t => t.isWord && !Cursor.isFrom t) ts
  let ts := ts.drop type.length
  let linking := leading Cursor.isFrom ts
  ⟨type, linking, pathPhrase (ts.drop linking.length)⟩

def ImportPhrase.tokens (p : ImportPhrase) : List Token :=
  p.type ++ p.linking ++ p.path

def create (t : Token) (ts : List Token) : Option Header × List Token :=
  match leading (·.isKeyword "page") ts with
  | [] => (none, [])
  | used => (some (.page (extent t used)), used)

def add (eof t : Token) : List Token → Except ParseError (Option Header × List Token)
  | [] => .error (.atToken eof (.kind .word eof.kind))
  | word :: ts =>
      if word.isWord then
        let content := leading (hasKind .string) ts
        let phrase := withPhrase (ts.drop content.length)
        let used := word :: content ++ phrase
        let text := (text? content).getD ""
        let leaf :=
          if word.value = "title" ∨ word.value = "tite" then .title text (extent t used)
          else .element ⟨.ofWord word.value, text, attributeWords phrase, extent t used⟩
        .ok (some (.leaf leaf), used)
      else .error (.atToken word (.kind .word word.kind))

def function (t : Token) (ts : List Token) : Option Header × List Token :=
  let used := leading (hasKind .identifier) ts
  (some (.function ((text? used).getD Parser.anonymous) (extent t used)), used)

def importing (t : Token) (ts : List Token) : Option Header × List Token :=
  let phrase := importPhrase ts
  let used := phrase.tokens
  (some (.leaf (.importing ⟨text? phrase.type, path? phrase.path, none, extent t used⟩)), used)

def title (t : Token) (ts : List Token) : Option Header × List Token :=
  let used := leading (hasKind .string) ts
  (some (.leaf (.title ((text? used).getD "") (extent t used))), used)

def script (kind : ScriptKind) (t : Token) (ts : List Token) : Option Header × List Token :=
  let used := withPhrase ts
  (some (.leaf (.script kind (attributeWords used) (extent t used))), used)

def header (eof t : Token) (ts : List Token) : Except ParseError (Option Header × List Token) :=
  if t.kind ≠ .keyword then .ok (none, [])
  else if t.value = "create" then .ok (create t ts)
  else if t.value = "add" then add eof t ts
  else if t.value = "function" then .ok (function t ts)
  else if t.value = "import" then .ok (importing t ts)
  else if t.value = "title" ∨ t.value = "tite" then .ok (title t ts)
  else .ok ((ScriptKind.ofWord? t.value).elim (none, []) fun kind => script kind t ts)

/-- The headers of tokens none of which marks the end of the input, after `skip` tokens that belong
to a header that has been read. -/
def headersFrom (eof : Token) : Nat → List Token → Except ParseError (List Header)
  | _, [] => .ok []
  | skip + 1, _ :: ts => headersFrom eof skip ts
  | 0, t :: ts => do
      let (h, used) ← header eof t ts
      let hs ← headersFrom eof used.length ts
      return h.toList ++ hs

def headers (eof : Token) (ts : List Token) : Except ParseError (List Header) :=
  headersFrom eof 0 ts

/-- The end of the input: the first token that marks it, or else one right after the last token. -/
def endToken (ts : List Token) : Token :=
  match ts.find? Token.isEnd, ts.getLast? with
  | some t, _ => t
  | none, some t => ⟨.endOfInput, "", t.line, t.column, .empty t.span.stop⟩
  | none, none => ⟨.endOfInput, "", 1, 1, .empty 0⟩

def ofTokens (ts : List Token) : Except ParseError (List Header) :=
  headers (endToken ts) (ts.takeWhile (!·.isEnd))

theorem ofTokens_append {ts : List Token} {eof : Token} (hts : ∀ t ∈ ts, t.isEnd = false)
    (heof : eof.isEnd = true) (post : List Token) :
    ofTokens (ts ++ eof :: post) = headers eof ts := by
  have hbefore : ∀ t ∈ ts, (!t.isEnd) = true := fun t ht => by simp [hts t ht]
  have hfind : (ts ++ eof :: post).find? Token.isEnd = some eof :=
    List.find?_eq_some_iff_append.2 ⟨heof, ts, post, rfl, hbefore⟩
  rw [ofTokens, endToken, hfind, List.takeWhile_append_of_pos hbefore,
    List.takeWhile_cons_of_neg (by simp [heof]), List.append_nil]

inductive Starts (eof t : Token) (ts : List Token) : Option Header × List Token → Prop
  | nothing : Starts eof t ts (none, [])
  | create : Starts eof t ts (create t ts)
  | add {r : Option Header × List Token} (h : add eof t ts = .ok r) : Starts eof t ts r
  | function (h : t.isKeyword "function" = true) : Starts eof t ts (function t ts)
  | importing : Starts eof t ts (importing t ts)
  | title : Starts eof t ts (title t ts)
  | script (kind : ScriptKind) : Starts eof t ts (script kind t ts)

section

variable {eof t : Token} {ts : List Token}

theorem starts_of_header {r : Option Header × List Token} (h : header eof t ts = .ok r) :
    Starts eof t ts r := by
  unfold header at h
  split at h
  · cases h
    exact .nothing
  next hkind =>
  split at h
  · cases h
    exact .create
  split at h
  · exact .add h
  split at h
  · next hvalue =>
      cases h
      exact .function (by simp_all [Token.isKeyword])
  split at h
  · cases h
    exact .importing
  split at h
  · cases h
    exact .title
  cases h
  cases ScriptKind.ofWord? t.value with
  | none => exact .nothing
  | some kind => exact .script kind

theorem add_eq_ok {r : Option Header × List Token} (h : add eof t ts = .ok r) :
    ∃ leaf, r.1 = some (.leaf leaf) := by
  cases ts with
  | nil => cases h
  | cons word ts =>
      rw [add] at h
      split at h
      · cases h
        exact ⟨_, rfl⟩
      · cases h

theorem create_cases (t : Token) (ts : List Token) :
    create t ts = (none, []) ∨ ∃ span used, create t ts = (some (.page span), used) := by
  unfold create
  split
  · exact .inl rfl
  · exact .inr ⟨_, _, rfl⟩

theorem isKeyword_of_header {used : List Token} {name : String} {span : Span}
    (h : header eof t ts = .ok (some (.function name span), used)) :
    t.isKeyword "function" = true := by
  generalize hr : (some (Header.function name span), used) = r at h
  cases starts_of_header h with
  | function hword => exact hword
  | nothing | importing | title | script => cases hr
  | create => rcases create_cases t ts with h | ⟨_, _, h⟩ <;> rw [h] at hr <;> cases hr
  | add hadd =>
      obtain ⟨leaf, hleaf⟩ := add_eq_ok hadd
      rw [← hr] at hleaf
      cases hleaf

theorem header_of_function (h : t.isKeyword "function" = true) :
    header eof t ts = .ok (function t ts) := by
  obtain ⟨hkind, hvalue⟩ : t.kind = .keyword ∧ t.value = "function" := by
    simpa [Token.isKeyword] using h
  simp [header, hkind, hvalue]

end

theorem headersFrom_eq (eof : Token) (skip : Nat) (ts : List Token) :
    headersFrom eof skip ts = headers eof (ts.drop skip) := by
  induction ts generalizing skip with
  | nil => cases skip <;> rfl
  | cons t ts ih =>
      cases skip with
      | zero => rfl
      | succ skip => exact ih skip

theorem headers_cons (eof t : Token) (ts : List Token) :
    headers eof (t :: ts) = header eof t ts >>= fun r =>
      (headers eof (ts.drop r.2.length)).map (r.1.toList ++ ·) := by
  rw [headers, headersFrom]
  cases header eof t ts with
  | error e => rfl
  | ok r =>
      change headersFrom eof r.2.length ts >>= _ = Except.map _ (headers eof _)
      rw [headersFrom_eq]
      rfl

theorem headersFrom_zero_eq_ok {eof t : Token} {ts : List Token} {hs : List Header}
    (h : headersFrom eof 0 (t :: ts) = .ok hs) :
    ∃ r later, header eof t ts = .ok r ∧ headersFrom eof r.2.length ts = .ok later ∧
      hs = r.1.toList ++ later := by
  rw [headersFrom] at h
  cases hheader : header eof t ts with
  | error e =>
      rw [hheader] at h
      cases h
  | ok r =>
      rw [hheader] at h
      change headersFrom eof r.2.length ts >>= _ = _ at h
      cases hlater : headersFrom eof r.2.length ts with
      | error e =>
          rw [hlater] at h
          cases h
      | ok later =>
          rw [hlater] at h
          cases h
          exact ⟨r, later, rfl, hlater, rfl⟩

theorem leading_cons (p : Token → Bool) (t : Token) (ts : List Token) :
    leading p (t :: ts) = if p t then [t] else [] := by
  cases h : p t <;> simp [leading, h]

theorem lastSpan_cons (last : Span) (t : Token) (ts : List Token) :
    lastSpan last (t :: ts) = lastSpan t.span ts := by
  cases h : ts.getLast? <;> simp [lastSpan, List.getLast?_cons, h]

theorem lastSpan_mem (t : Token) (ts : List Token) :
    ∃ u ∈ t :: ts, lastSpan t.span ts = u.span := by
  cases h : ts.getLast? with
  | none => exact ⟨t, List.mem_cons_self, by simp [lastSpan, h]⟩
  | some u => exact ⟨u, List.mem_cons_of_mem t (List.mem_of_getLast? h), by simp [lastSpan, h]⟩

theorem lastSpan_append (last : Span) (ts us : List Token) :
    lastSpan last (ts ++ us) = lastSpan (lastSpan last ts) us := by
  cases h : us.getLast? <;> simp [lastSpan, List.getLast?_append, h]

end Scan

end EnglishPages
