import EnglishPages.Document.Json
import EnglishPages.Proofs.LetterCase
import EnglishPages.Proofs.StatementSpans

/-!
Documents written as JSON and read back. Two things could be lost on the way. The kind of an element
is written in upper case and read in any case, so a kind comes back if it is the one that its own
word names; and offsets are read as numbers of 64 bits. Where both are right, at every depth, the
document comes back, and nothing that is read is otherwise.
-/

namespace EnglishPages

namespace ElementKind

/-- A word of no named kind is in lower case and does not name one. -/
def Canonical : ElementKind → Prop
  | other word => (∀ c ∈ word.toList, c.isUpper = false) ∧ ∀ k ∈ named, k.word ≠ word
  | _ => True

theorem canonical_of_mem_named {k : ElementKind} (h : k ∈ named) : k.Canonical := by
  cases k with
  | other word => simp [named] at h
  | _ => trivial

theorem canonical_ofWord (word : String) : (ofWord word).Canonical := by
  simp only [ofWord]
  cases hfind : named.find? (·.word == word.toLower) with
  | some k => exact canonical_of_mem_named (List.mem_of_find?_eq_some hfind)
  | none =>
      refine ⟨fun c hc => ?_, by simpa using hfind⟩
      change c ∈ (word.map Char.toLower).toList at hc
      rw [String.toList_map] at hc
      obtain ⟨d, -, rfl⟩ := List.mem_map.1 hc
      exact Text.isUpper_toLower d

theorem ofWord_jsonName {k : ElementKind} (h : k.Canonical) : ofWord k.jsonName = k := by
  cases k with
  | other word =>
      have hword : word.toUpper.toLower = word := by
        apply String.ext
        change ((word.map Char.toUpper).map Char.toLower).toList = word.toList
        rw [String.toList_map, String.toList_map, List.map_map]
        exact (List.map_congr_left fun c hc => Text.toLower_toUpper (h.1 c hc)).trans (List.map_id' _)
      have hfind : named.find? (·.word == word) = none := by simpa using h.2
      change (named.find? (·.word == word.toUpper.toLower)).getD (other word.toUpper.toLower) = _
      rw [hword, hfind]
      rfl
  | _ => decide +kernel

end ElementKind

namespace ScriptKind

theorem ofWord?_word (k : ScriptKind) : ofWord? k.word = some k := by
  cases k <;> decide

end ScriptKind

namespace Span

def Fits (s : Span) : Prop :=
  s.start < UInt64.size ∧ s.stop < UInt64.size

theorem ofJson?_toJson {s : Span} (h : s.Fits) : ofJson? s.toJson = some s := by
  change (do return ⟨← (Json.natural s.start).asWord?, ← (Json.natural s.stop).asWord?⟩) = some s
  rw [Json.asWord?, Json.asWord?, if_pos h.1, if_pos h.2]
  rfl

theorem lt_of_asWord? {j : Json} {n : Nat} (h : j.asWord? = some n) : n < UInt64.size := by
  cases j with
  | natural m =>
      rw [Json.asWord?] at h
      split at h
      · next hlt =>
          cases h
          exact hlt
      · cases h
  | _ => cases h

theorem fits_of_ofJson? {j : Json} {s : Span} (h : ofJson? j = some s) : s.Fits := by
  simp only [ofJson?, Option.bind_eq_bind, Option.bind_eq_some_iff, Option.pure_def] at h
  obtain ⟨_, -, _, -, start, hstart, _, -, stop, hstop, hs⟩ := h
  cases hs
  exact ⟨lt_of_asWord? hstart, lt_of_asWord? hstop⟩

end Span

namespace Header

def Canonical : Header → Prop
  | leaf (.element e) => e.kind.Canonical
  | _ => True

def Storable (h : Header) : Prop :=
  h.Canonical ∧ h.span.Fits

end Header

namespace Node

theorem mapM_asString? (ss : List String) :
    (ss.map Json.string).mapM Json.asString? = some ss := by
  induction ss with
  | nil => rfl
  | cons s ss ih =>
      rw [List.map_cons, List.mapM_cons, ih]
      rfl

theorem ofJson?_importing (inside : Bool) (i : Import) :
    ofJson? inside (importing i).toJson =
      (do return importing { i with span := ← Span.ofJson? i.span.toJson }) := by
  rw [toJson, ofJson?]
  obtain ⟨_ | type, _ | path, _ | compiled, span⟩ := i <;> rfl

mutual

theorem ofJson?_toJson (inside : Bool) :
    (n : Node) → (∀ h ∈ n.headers, h.Storable) → ofJson? inside n.toJson = some n
  | page children span, h => by
      rw [headers, List.forall_mem_cons] at h
      have hchildren := listOfJson?_listToJson true children h.2
      have hspan : Span.ofJson? span.toJson = some span := Span.ofJson?_toJson h.1.2
      rw [toJson, ofJson?]
      change (do
        return page (← listOfJson? true (listToJson children))
          (← Span.ofJson? span.toJson)) = _
      rw [hchildren, hspan]
      rfl
  | function name children span, h => by
      rw [headers, List.forall_mem_cons] at h
      have hchildren := listOfJson?_listToJson true children h.2
      have hspan : Span.ofJson? span.toJson = some span := Span.ofJson?_toJson h.1.2
      rw [toJson, ofJson?]
      change (do
        return function name (← listOfJson? true (listToJson children))
          (← Span.ofJson? span.toJson)) = _
      rw [hchildren, hspan]
      rfl
  | importing i, h => by
      rw [headers, List.forall_mem_singleton] at h
      have hspan : Span.ofJson? i.span.toJson = some i.span := Span.ofJson?_toJson h.2
      rw [ofJson?_importing, hspan]
      rfl
  | title content span, h => by
      rw [headers, List.forall_mem_singleton] at h
      have hspan : Span.ofJson? span.toJson = some span := Span.ofJson?_toJson h.2
      rw [toJson, ofJson?]
      change (do return title content (← Span.ofJson? span.toJson)) = _
      rw [hspan]
      rfl
  | script kind attributes span, h => by
      rw [headers, List.forall_mem_singleton] at h
      have hspan : Span.ofJson? span.toJson = some span := Span.ofJson?_toJson h.2
      rw [toJson, ofJson?]
      change (do
        return script (← ScriptKind.ofWord? kind.word)
          (← (attributes.map Json.string).mapM Json.asString?) (← Span.ofJson? span.toJson)) = _
      rw [ScriptKind.ofWord?_word, mapM_asString?, hspan]
      rfl
  | element e, h => by
      rw [headers, List.forall_mem_singleton] at h
      have hspan : Span.ofJson? e.span.toJson = some e.span := Span.ofJson?_toJson h.2
      rw [toJson, ofJson?]
      change (do
        return element ⟨ElementKind.ofWord e.kind.jsonName, e.content,
          ← (e.attributes.map Json.string).mapM Json.asString?, ← Span.ofJson? e.span.toJson⟩) = _
      rw [ElementKind.ofWord_jsonName h.1, mapM_asString?, hspan]
      rfl

theorem listOfJson?_listToJson (inside : Bool) :
    (ns : List Node) → (∀ h ∈ headersOf ns, h.Storable) →
      listOfJson? inside (listToJson ns) = some ns
  | [], _ => by rw [listToJson, listOfJson?]
  | n :: ns, h => by
      rw [headersOf, List.forall_mem_append] at h
      rw [listToJson, listOfJson?, ofJson?_toJson inside n h.1, listOfJson?_listToJson inside ns h.2]
      rfl

end

def AllStorable (ns : List Node) : Prop :=
  ∀ x ∈ headersOf ns, x.Storable

variable {inside : Bool} {j : Json} {n : Node} {ns : List Node}

theorem fits_of_spanMember? {s : Span} (h : spanMember? j = some s) : s.Fits := by
  obtain ⟨_, -, hs⟩ := Option.bind_eq_some_iff.1 h
  exact Span.fits_of_ofJson? hs

theorem storable_of_ofMembers? {type : String} {children : Option (List Node)}
    (h : ofMembers? type j children = some n) (hchildren : ∀ ns ∈ children, AllStorable ns) :
    ∀ x ∈ n.headers, x.Storable := by
  unfold ofMembers? at h
  split at h <;> simp only [Option.bind_eq_bind, Option.bind_eq_some_iff, Option.pure_def,
    reduceCtorEq] at h
  · obtain ⟨ns, hns, span, hspan, hn⟩ := h
    cases hn
    rw [headers, List.forall_mem_cons]
    exact ⟨⟨trivial, fits_of_spanMember? hspan⟩, hchildren ns hns⟩
  · obtain ⟨name, -, ns, hns, span, hspan, hn⟩ := h
    cases hn
    rw [headers, List.forall_mem_cons]
    exact ⟨⟨trivial, fits_of_spanMember? hspan⟩, hchildren ns hns⟩
  · obtain ⟨type, -, path, -, compiled, -, span, hspan, hn⟩ := h
    cases hn
    rw [headers, List.forall_mem_singleton]
    exact ⟨trivial, fits_of_spanMember? hspan⟩
  · obtain ⟨content, -, span, hspan, hn⟩ := h
    cases hn
    rw [headers, List.forall_mem_singleton]
    exact ⟨trivial, fits_of_spanMember? hspan⟩
  · obtain ⟨_, -, kind, -, attributes, -, span, hspan, hn⟩ := h
    cases hn
    rw [headers, List.forall_mem_singleton]
    exact ⟨trivial, fits_of_spanMember? hspan⟩
  · obtain ⟨kind, -, content, -, attributes, -, span, hspan, hn⟩ := h
    cases hn
    rw [headers, List.forall_mem_singleton]
    exact ⟨ElementKind.canonical_ofWord kind, fits_of_spanMember? hspan⟩

mutual

theorem storable_of_ofJson? {inside : Bool} {n : Node} :
    (j : Json) → ofJson? inside j = some n → ∀ x ∈ n.headers, x.Storable
  | .object members, h => by
      rw [ofJson?] at h
      simp only [Option.bind_eq_bind, Option.bind_eq_some_iff] at h
      obtain ⟨_, -, type, -, _, -, h⟩ := h
      exact storable_of_ofMembers? h fun ns hns => allStorable_of_childrenOf? members hns
  | .array (tag :: items), h => by
      rw [ofJson?] at h
      simp only [Option.bind_eq_bind, Option.bind_eq_some_iff] at h
      obtain ⟨type, -, _, -, h⟩ := h
      exact storable_of_ofMembers? h fun ns hns => allStorable_of_childrenAt? _ items hns
  | .array [], h | .null, h | .bool _, h | .natural _, h | .decimal _, h | .string _, h => by
      cases h

theorem allStorable_of_childrenOf? {ns : List Node} :
    (members : List (String × Json)) → childrenOf? members = some ns → AllStorable ns
  | [], h => by cases h
  | (key, .array items) :: members, h => by
      rw [childrenOf?] at h
      split at h
      · exact allStorable_of_listOfJson? items h
      · exact allStorable_of_childrenOf? members h
  | (key, .null) :: members, h | (key, .bool _) :: members, h | (key, .natural _) :: members, h
  | (key, .decimal _) :: members, h | (key, .string _) :: members, h
  | (key, .object _) :: members, h => by
      rw [childrenOf?] at h
      · split at h
        · cases h
        · exact allStorable_of_childrenOf? members h
      · nofun

theorem allStorable_of_childrenAt? {ns : List Node} :
    (position : Nat) → (items : List Json) → childrenAt? position items = some ns → AllStorable ns
  | 0, .array items :: _, h => allStorable_of_listOfJson? items h
  | position + 1, _ :: fields, h => allStorable_of_childrenAt? position fields h
  | 0, [], h | _ + 1, [], h | 0, .null :: _, h | 0, .bool _ :: _, h | 0, .natural _ :: _, h
  | 0, .decimal _ :: _, h | 0, .string _ :: _, h | 0, .object _ :: _, h => by cases h

theorem allStorable_of_listOfJson? {inside : Bool} {ns : List Node} :
    (js : List Json) → listOfJson? inside js = some ns → AllStorable ns
  | [], h => by
      rw [listOfJson?] at h
      cases h
      exact fun _ hx => absurd hx List.not_mem_nil
  | j :: js, h => by
      rw [listOfJson?] at h
      simp only [Option.bind_eq_bind, Option.bind_eq_some_iff, Option.pure_def] at h
      obtain ⟨n, hn, ns, hns, hall⟩ := h
      cases hall
      rw [AllStorable, headersOf, List.forall_mem_append]
      exact ⟨storable_of_ofJson? j hn, allStorable_of_listOfJson? js hns⟩

end

end Node

namespace Scan

theorem canonical_header {eof t : Token} {ts : List Token} {r : Option Header × List Token}
    (h : header eof t ts = .ok r) : ∀ x ∈ r.1, x.Canonical := by
  cases starts_of_header h with
  | nothing => rintro _ ⟨⟩
  | create =>
      rcases create_cases t ts with h | ⟨_, _, h⟩ <;> rw [h] <;> rintro _ ⟨⟩
      trivial
  | add hadd =>
      cases ts with
      | nil => cases hadd
      | cons word ts =>
          rw [add] at hadd
          split at hadd
          · cases hadd
            rintro _ ⟨⟩
            by_cases htitle : word.value = "title" ∨ word.value = "tite"
            · simp only [if_pos htitle]
              trivial
            · simp only [if_neg htitle]
              exact ElementKind.canonical_ofWord word.value
          · cases hadd
  | function | importing | title | script =>
      rintro _ ⟨⟩
      trivial

end Scan

namespace Document

def Canonical (d : Document) : Prop :=
  ∀ h ∈ Node.headersOf d.nodes, h.Canonical

def Fits (d : Document) : Prop :=
  ∀ h ∈ Node.headersOf d.nodes, h.span.Fits

variable {d : Document}

theorem canonical_and_inside_of_parse {source : String} (h : parse source = .ok d) :
    ∀ x ∈ Node.headersOf d.nodes, x.Canonical ∧
      x.span.start ≤ source.utf8ByteSize ∧ x.span.stop ≤ source.utf8ByteSize := by
  obtain ⟨hs, hscan, rfl⟩ := parse_eq_ok_iff.1 h
  obtain ⟨ts, q, rest, eof, hreads, -, hofTokens⟩ := exists_reads_ofTokens source
  rw [hofTokens] at hscan
  rw [Outline.headersOf_nest]
  intro x hx
  obtain ⟨us, t, used, vs, rfl, hread⟩ := Scan.exists_tokens_of_mem hscan hx
  obtain ⟨before, slice, after, hsource, hextent, -⟩ := hreads.exists_slice
  have hbytes : source.utf8ByteSize =
      Text.byteLength before + (Text.byteLength slice + Text.byteLength after) := by
    rw [← Text.byteLength_append, ← Text.byteLength_append, ← hsource, Text.byteLength,
      String.ofList_toList]
  have hstart : (Position.start.advanceAll before).offset = Text.byteLength before := by
    rw [Position.offset_advanceAll]
    exact Nat.zero_add _
  have hstop : ((Position.start.advanceAll before).advanceAll slice).offset =
      Text.byteLength before + Text.byteLength slice := by
    rw [Position.offset_advanceAll, hstart]
  rw [Scan.span_of_header hread x rfl, hextent, hstart, hstop, hbytes]
  exact ⟨Scan.canonical_header hread x rfl, Nat.le_add_right _ _,
    Nat.add_le_add_left (Nat.le_add_right _ _) _⟩

theorem toJson_reads (hcanonical : d.Canonical) (hfits : d.Fits) : ofJson? d.toJson = some d := by
  have hnodes := Node.listOfJson?_listToJson false d.nodes fun h hh =>
    ⟨hcanonical h hh, hfits h hh⟩
  change (do return Document.mk (← Node.listOfJson? false (Node.listToJson d.nodes))) = _
  rw [hnodes]
  rfl

theorem canonical_and_fits_of_ofJson? {j : Json} (h : ofJson? j = some d) :
    d.Canonical ∧ d.Fits := by
  simp only [ofJson?, Option.bind_eq_bind, Option.bind_eq_some_iff, Option.pure_def] at h
  obtain ⟨_, -, _, -, items, -, nodes, hnodes, hd⟩ := h
  cases hd
  have hall := Node.allStorable_of_listOfJson? items hnodes
  exact ⟨fun x hx => (hall x hx).1, fun x hx => (hall x hx).2⟩

/-- A document comes back from its JSON if and only if its kinds are canonical and its offsets fit;
both hold of every document that was read from JSON, however it was spelled there, and the first of
every document of a source, the second too if the source is not too long for its own offsets. -/
theorem ofJson?_toJson_iff :
    (∀ d : Document, ofJson? d.toJson = some d ↔ d.Canonical ∧ d.Fits) ∧
    (∀ j d, ofJson? j = some d → d.Canonical ∧ ofJson? d.toJson = some d) ∧
    ∀ source d, parse source = .ok d →
      d.Canonical ∧ (source.utf8ByteSize < UInt64.size → ofJson? d.toJson = some d) := by
  refine ⟨fun d => ⟨canonical_and_fits_of_ofJson?, fun h => toJson_reads h.1 h.2⟩,
    fun j d h => ?_, fun source d h => ?_⟩
  · obtain ⟨hcanonical, hfits⟩ := canonical_and_fits_of_ofJson? h
    exact ⟨hcanonical, toJson_reads hcanonical hfits⟩
  · have hall := canonical_and_inside_of_parse h
    have hcanonical : d.Canonical := fun x hx => (hall x hx).1
    refine ⟨hcanonical, fun hsize => toJson_reads hcanonical fun x hx => ?_⟩
    obtain ⟨-, hstart, hstop⟩ := hall x hx
    exact ⟨Nat.lt_of_le_of_lt hstart hsize, Nat.lt_of_le_of_lt hstop hsize⟩

/-- A page given by an array, in it an element given by its number, with a kind in mixed case and a
reversed span. -/
theorem ofJson?_toJson_iff_marquee :
    let j : Json := .object [("nodes", .array [.array [.string "PAGE",
      .array [.object [("kind", .string "MarQuee"), ("type", .natural 5), ("content", .string "<é"),
        ("attrs", .array [.string "bold"]), ("span", .array [.natural 7, .natural 2])]],
      .object [("end", .natural 11), ("start", .natural 0)]]])]
    let d : Document :=
      ⟨[.page [.element ⟨.other "marquee", "<é", ["bold"], ⟨7, 2⟩⟩] ⟨0, 11⟩]⟩
    ofJson? j = some d ∧ d.Canonical ∧ ofJson? d.toJson = some d := by
  intro j d
  have hkind : ElementKind.ofWord "MarQuee" = .other "marquee" := by decide +kernel
  have hread : ofJson? j = some ⟨[.page [.element
      ⟨ElementKind.ofWord "MarQuee", "<é", ["bold"], ⟨7, 2⟩⟩] ⟨0, 11⟩]⟩ := rfl
  rw [hkind] at hread
  exact ⟨hread, ofJson?_toJson_iff.2.1 j d hread⟩

end Document

end EnglishPages
