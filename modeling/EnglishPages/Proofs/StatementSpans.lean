import EnglishPages.Proofs.DocumentShape
import EnglishPages.Proofs.Phrases
import EnglishPages.Proofs.Relocation

/-!
What the span of a statement covers. A statement is placed from the first of its tokens to the last.
The text there gives the same tokens when it is cut out, because a token ends by itself or where
nothing follows; these tokens give the same header; and so the text is a source of its own, of a
document with that statement alone.

The tokens of different statements are different tokens, in the order of the text, so the spans of
the statements are in order too.
-/

namespace EnglishPages

namespace Span

def atStart (s : Span) : Span := ⟨0, s.length⟩

end Span

namespace Node

mutual

def preorder : Node → List Node
  | page children span => .page children span :: preorderOf children
  | function name children span => .function name children span :: preorderOf children
  | importing i => [.importing i]
  | title content span => [.title content span]
  | script kind attributes span => [.script kind attributes span]
  | element e => [.element e]

def preorderOf : List Node → List Node
  | [] => []
  | node :: nodes => preorder node ++ preorderOf nodes

end

mutual

theorem map_header_preorder : (n : Node) → n.preorder.map header = n.headers
  | page children span | function name children span => by
      rw [preorder, headers, List.map_cons, map_header_preorderOf children, header]
  | importing i | title content span | script kind attributes span | element e => by
      rw [preorder, headers, List.map_singleton, header]

theorem map_header_preorderOf : (ns : List Node) → (preorderOf ns).map header = headersOf ns
  | [] => rfl
  | n :: ns => by
      rw [preorderOf, headersOf, List.map_append, map_header_preorder n, map_header_preorderOf ns]

end

theorem span_header (n : Node) : n.header.span = n.span := by
  cases n <;> rfl

/-- The statement without those in it, at the start of a source. -/
def alone : Node → Node
  | page _ span => .page [] span.atStart
  | function name _ span => .function name [] span.atStart
  | importing i => .importing { i with span := i.span.atStart }
  | title content span => .title content span.atStart
  | script kind attributes span => .script kind attributes span.atStart
  | element e => .element { e with span := e.span.atStart }

end Node

namespace Token.Reads

open Scan

variable {p q : Position} {cs rest : List Char} {t : Token} {us ts vs : List Token}

theorem split (h : Reads p cs (us ++ ts) q rest) :
    ∃ p' cs', Reads p cs us p' cs' ∧ Reads p' cs' ts q rest := by
  induction us generalizing p cs with
  | nil => exact ⟨p, cs, .done p cs, h⟩
  | cons u us ih =>
      cases h with
      | next hgap hl h =>
          obtain ⟨p', cs', hus, hts⟩ := ih h
          exact ⟨p', cs', .next hgap hl hus, hts⟩

theorem ungapped (h : Reads p cs (t :: ts) q rest) :
    ∃ gap cs', cs = gap ++ cs' ∧ t.span.start = (p.advanceAll gap).offset ∧
      Reads (p.advanceAll gap) cs' (t :: ts) q rest := by
  cases h with
  | @next _ _ gap cs _ l _ hgap hl h =>
      have hnone : ∀ c ∈ ([] : List Char), starts c = false := by simp
      exact ⟨gap, l.text ++ cs, rfl, rfl, .next hnone hl h⟩

theorem stop_le_offset (h : Reads p cs ts q rest) (ht : t ∈ ts) : t.span.stop ≤ q.offset := by
  induction h with
  | done => cases ht
  | next hgap hl h ih =>
      rcases List.mem_cons.1 ht with rfl | ht
      · obtain ⟨used, -, rfl, -⟩ := h.cut
        rw [Position.offset_advanceAll]
        exact Nat.le_add_right _ _
      · exact ih ht

theorem offset_lt (h : Reads p cs (t :: ts) q rest) : p.offset < q.offset := by
  have hstop := h.stop_le_offset List.mem_cons_self
  obtain ⟨before, l, _, -, hl, rfl⟩ := h.exists_lexeme_of_mem List.mem_cons_self
  obtain ⟨hne, -, -⟩ := lexeme?_append hl
  have hpos := Text.byteLength_pos hne
  rw [l.stop_token] at hstop
  omega

theorem stop_lastSpan (h : Reads p cs ts q rest) {last : Span} (hlast : last.stop = p.offset) :
    (lastSpan last ts).stop = q.offset := by
  induction h generalizing last with
  | done => exact hlast
  | next hgap hl h ih =>
      rw [lastSpan_cons]
      exact ih rfl

theorem extent_eq (h : Reads p cs (t :: ts) q rest) (ht : t.span.start = p.offset) :
    extent t ts = ⟨p.offset, q.offset⟩ := by
  have hlast : (lastSpan (.empty p.offset) (t :: ts)).stop = q.offset := h.stop_lastSpan rfl
  rw [lastSpan_cons] at hlast
  obtain ⟨u, hu, hspan⟩ := lastSpan_mem t ts
  have hstart := h.offset_le_start hu
  have hstop := h.stop_le_offset List.mem_cons_self
  rw [← hspan] at hstart
  rw [extent, Span.join, hlast, ht, Nat.min_eq_left hstart, Nat.max_eq_right hstop]

theorem exists_slice (h : Reads p cs (us ++ (t :: ts ++ vs)) q rest) :
    ∃ before slice after, cs = before ++ (slice ++ after) ∧
      extent t ts = ⟨(p.advanceAll before).offset,
        ((p.advanceAll before).advanceAll slice).offset⟩ ∧
      Reads (p.advanceAll before) slice (t :: ts) ((p.advanceAll before).advanceAll slice) [] := by
  obtain ⟨_, _, hbefore, hbehind⟩ := h.split
  obtain ⟨before, rfl, rfl, -⟩ := hbefore.cut
  obtain ⟨_, _, hslice, -⟩ := hbehind.split
  obtain ⟨gap, _, rfl, hstart, hslice⟩ := hslice.ungapped
  have hextent := hslice.extent_eq hstart
  obtain ⟨slice, rfl, rfl, hcut⟩ := hslice.cut
  have halone := hcut [] List.nil_prefix
  rw [List.append_nil] at halone
  rw [← Position.advanceAll_append] at hextent halone
  exact ⟨before ++ gap, slice, _, (List.append_assoc _ _ _).symm, hextent, halone⟩

end Token.Reads

namespace Scan

variable {eof t : Token} {ts : List Token}

theorem span_of_header {r : Option Header × List Token} (h : header eof t ts = .ok r) :
    ∀ x ∈ r.1, x.span = extent t r.2 := by
  cases starts_of_header h with
  | nothing => rintro _ ⟨⟩
  | create =>
      rw [create]
      split
      · rintro _ ⟨⟩
      · rintro _ ⟨⟩
        rfl
  | add hadd =>
      cases ts with
      | nil => cases hadd
      | cons word ts =>
          rw [add] at hadd
          split at hadd
          · cases hadd
            rintro _ ⟨⟩
            dsimp only
            split <;> rfl
          · cases hadd
  | function | importing | title | script =>
      rintro _ ⟨⟩
      rfl

theorem stop_extent_le_start {u : Token} {us : List Token}
    (h : ∀ a ∈ t :: ts, ∀ b ∈ u :: us, a.span.stop ≤ b.span.start) :
    (extent t ts).stop ≤ (extent u us).start := by
  obtain ⟨a, ha, hlast⟩ := lastSpan_mem t ts
  obtain ⟨b, hb, hlast'⟩ := lastSpan_mem u us
  rw [extent, extent, hlast, hlast']
  have hu := List.mem_cons_self (a := u) (l := us)
  refine Nat.max_le.2 ⟨Nat.le_min.2 ⟨?_, ?_⟩, Nat.le_min.2 ⟨?_, ?_⟩⟩
  · exact h t List.mem_cons_self u hu
  · exact h t List.mem_cons_self b hb
  · exact h a ha u hu
  · exact h a ha b hb

theorem pairwise_span_headersFrom {skip : Nat} {hs : List Header}
    (hts : ts.Pairwise fun a b => a.span.stop ≤ b.span.start)
    (hread : headersFrom eof skip ts = .ok hs) :
    hs.Pairwise fun a b => a.span.stop ≤ b.span.start := by
  induction ts generalizing skip hs with
  | nil =>
      cases skip <;> cases hread <;> exact .nil
  | cons t ts ih =>
      have hrest := (List.pairwise_cons.1 hts).2
      cases skip with
      | succ skip => exact ih hrest hread
      | zero =>
          obtain ⟨⟨first, used⟩, later, hheader, hlater, rfl⟩ := headersFrom_zero_eq_ok hread
          have hordered := ih hrest hlater
          cases first with
          | none => exact hordered
          | some h =>
              refine List.pairwise_cons.2 ⟨fun x hx => ?_, hordered⟩
              -- The tokens of a later header are behind those of the first.
              rw [headersFrom_eq] at hlater
              obtain ⟨before, u, used', after, hbehind, hread'⟩ := exists_tokens_of_mem hlater hx
              obtain ⟨more, rfl⟩ := header_front hheader
              rw [List.drop_left] at hbehind
              rw [hbehind, ← List.cons_append, List.pairwise_append] at hts
              rw [span_of_header hheader h rfl, span_of_header hread' x rfl]
              refine stop_extent_le_start fun a ha b hb => hts.2.2 a ha b ?_
              exact List.mem_append_right before (List.mem_append_left after hb)

theorem ofTokens_append_end (hts : ∀ t ∈ ts, t.kind ≠ .endOfInput)
    (heof : eof.kind = .endOfInput) : ofTokens (ts ++ [eof]) = headers eof ts :=
  ofTokens_append (fun t ht => beq_eq_false_iff_ne.2 (hts t ht)) (beq_iff_eq.2 heof) []

end Scan

namespace Document

open Scan Token

theorem exists_reads_ofTokens (source : String) :
    ∃ ts q rest eof, Reads .start source.toList ts q rest ∧ tokenize source = ts ++ [eof] ∧
      Scan.ofTokens (tokenize source) = headers eof ts := by
  obtain ⟨ts, q, rest, eof, hreads, -, htokens, hkind, -⟩ := exists_reads_tokenize source
  have hscan := ofTokens_append_end (fun t ht => hreads.kind_ne_endOfInput ht) hkind
  rw [← htokens] at hscan
  exact ⟨ts, q, rest, eof, hreads, htokens, hscan⟩

theorem ofTokens_slice {p q : Position} {slice : List Char} {ts : List Token} {hs : List Header}
    (h : Reads p slice ts q []) (hread : ∀ eof, headers eof ts = .ok hs) :
    Scan.ofTokens (tokenize (String.ofList slice)) =
      .ok (hs.map (Relocation.back p.offset).header) := by
  obtain ⟨us, _, _, eof, -, htokens, hscan⟩ := exists_reads_ofTokens (String.ofList slice)
  have hspan : ∀ i j,
      (Relocation.back 0).span ⟨Position.start.offset + i, Position.start.offset + j⟩ =
        (Relocation.back p.offset).span ⟨p.offset + i, p.offset + j⟩ := by
    intro i j
    simp [Relocation.back, Position.start]
  have hmoved := relocated_scanFrom hspan (fun _ _ => rfl) (fun _ _ => rfl) 0 slice
  rw [tokenize, String.toList_ofList] at htokens
  rw [htokens, h.scanFrom_eq, scanFrom_nil, List.map_append, List.map_append] at hmoved
  obtain ⟨hsame, hend⟩ := List.append_inj' hmoved rfl
  have hslice := headers_relocated (.back 0) eof us
  rw [hsame, List.singleton_inj.1 hend, headers_relocated, hread] at hslice
  rw [hscan]
  cases hus : headers eof us with
  | error e =>
      rw [hus] at hslice
      cases hslice
  | ok hs' =>
      rw [hus] at hslice
      have hheaders := Except.ok.inj hslice
      rw [List.map_congr_left fun h _ => Relocation.header_back_zero h, List.map_id'] at hheaders
      rw [hheaders]

theorem nodes_nest_alone (n : Node) :
    (Outline.nest [(Relocation.back n.span.start).header n.header]).nodes = [n.alone] := by
  have hspan (s : Span) : (Relocation.back s.start).span s = s.atStart :=
    congrArg (Span.mk · _) (Nat.sub_self _)
  cases n with
  | page children span => exact congrArg (fun s => [Node.page [] s]) (hspan span)
  | function name children span => exact congrArg (fun s => [Node.function name [] s]) (hspan span)
  | importing i =>
      exact congrArg (fun s => [Node.importing { i with span := s }]) (hspan i.span)
  | title content span => exact congrArg (fun s => [Node.title content s]) (hspan span)
  | script kind attributes span =>
      exact congrArg (fun s => [Node.script kind attributes s]) (hspan span)
  | element e => exact congrArg (fun s => [Node.element { e with span := s }]) (hspan e.span)

/-- Every statement of a parsed source, at any depth, covers a text that is itself the source of
that statement alone; and the statements follow each other without overlapping. -/
theorem selfContained_of_parse {source : String} {d : Document} (h : parse source = .ok d) :
    (∀ n ∈ Node.preorderOf d.nodes, n.span.start < n.span.stop ∧
      ∃ before text after, n.span.Cuts source before text after ∧
        parse text = .ok ⟨[n.alone]⟩) ∧
      (Node.preorderOf d.nodes).Pairwise fun a b => a.span.stop ≤ b.span.start := by
  obtain ⟨hs, hscan, rfl⟩ := parse_eq_ok_iff.1 h
  obtain ⟨ts, q, rest, eof, hreads, -, hofTokens⟩ := exists_reads_ofTokens source
  rw [hofTokens] at hscan
  have hheaders : (Node.preorderOf (Outline.nest hs).nodes).map Node.header = hs := by
    rw [Node.map_header_preorderOf, Outline.headersOf_nest]
  refine ⟨fun n hn => ?_, ?_⟩
  · have hmem : n.header ∈ hs := hheaders ▸ List.mem_map_of_mem hn
    obtain ⟨us, t, used, vs, rfl, hread⟩ := exists_tokens_of_mem hscan hmem
    obtain ⟨before, slice, after, hsource, hextent, hslice⟩ := hreads.exists_slice
    have hspan : n.span = extent t used := by
      rw [← n.span_header]
      exact span_of_header hread n.header rfl
    rw [hextent] at hspan
    have hstart : n.span.start = (Position.start.advanceAll before).offset :=
      congrArg Span.start hspan
    have hparse := ofTokens_slice hslice fun eof => headers_alone hread eof
    rw [← hstart, List.map_singleton] at hparse
    refine ⟨?_, String.ofList before, String.ofList slice, String.ofList after, ?_, ?_⟩
    · rw [hspan]
      exact hslice.offset_lt
    · rw [hspan]
      exact Span.cuts_of_append hsource
    · exact parse_eq_ok_iff.2 ⟨_, hparse, congrArg Document.mk (nodes_nest_alone n).symm⟩
  · have hordered := pairwise_span_headersFrom hreads.pairwise hscan
    rw [← hheaders, List.pairwise_map] at hordered
    simpa only [Node.span_header] using hordered

theorem selfContained_of_parse_unclosed_string :
    ∃ d, parse "é import css from [ x ] js, function Create page add nav \"a\\" = .ok d ∧
      (Node.preorderOf d.nodes).map Node.span = [⟨3, 27⟩, ⟨29, 37⟩, ⟨38, 49⟩, ⟨50, 61⟩] ∧
      (∀ n ∈ Node.preorderOf d.nodes, n.span.start < n.span.stop ∧
        ∃ before text after,
          n.span.Cuts "é import css from [ x ] js, function Create page add nav \"a\\"
            before text after ∧
          parse text = .ok ⟨[n.alone]⟩) ∧
      (Node.preorderOf d.nodes).Pairwise fun a b => a.span.stop ≤ b.span.start := by
  have hscan : (Scan.ofTokens (tokenize
      "é import css from [ x ] js, function Create page add nav \"a\\")).toOption =
      some [.leaf (.importing ⟨some "css", some "x.js", none, ⟨3, 27⟩⟩),
        .function "anonymous" ⟨29, 37⟩, .page ⟨38, 49⟩,
        .leaf (.element ⟨.nav, "a\\", [], ⟨50, 61⟩⟩)] := by decide +kernel
  have hparse := parse_eq_ok_iff.2 ⟨_, eq_ok_of_toOption hscan, rfl⟩
  exact ⟨_, hparse, rfl, selfContained_of_parse hparse⟩

end Document

end EnglishPages
