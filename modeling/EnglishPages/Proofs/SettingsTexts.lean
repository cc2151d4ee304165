import EnglishPages.Config
import EnglishPages.Proofs.JsonReading
import EnglishPages.Proofs.JsonWriting
import EnglishPages.Proofs.Trimming

/-!
What a settings file is taken for, whatever settings its object gives, in whatever order and however
their texts are escaped.

A setting is a value with the place that it goes to, so a list of settings without a repeated key is
an object that can be taken. The settings that are not given are the default ones. Only then are the
settings checked, the title first. Every other object is refused.
-/

namespace EnglishPages

/-- A setting as it is given. A width is at most what fits in 64 bits. -/
inductive Setting where
  | defaultTitle (title : String)
  | indentWidth (width : UInt64)
  | inlineImports (on : Bool)
  | emitSidecars (on : Bool)

namespace Setting

def key : Setting → String
  | defaultTitle _ => "default_title"
  | indentWidth _ => "indent_width"
  | inlineImports _ => "inline_imports"
  | emitSidecars _ => "emit_sidecars"

def value : Setting → Json
  | defaultTitle title => .string title
  | indentWidth width => .natural width.toNat
  | inlineImports on => .bool on
  | emitSidecars on => .bool on

def member (s : Setting) : String × Json :=
  (s.key, s.value)

def title? : Setting → Option String
  | defaultTitle title => some title
  | _ => none

def width? : Setting → Option Nat
  | indentWidth width => some width.toNat
  | _ => none

def imports? : Setting → Option Bool
  | inlineImports on => some on
  | _ => none

def sidecars? : Setting → Option Bool
  | emitSidecars on => some on
  | _ => none

/-- For a place that only the settings of one key go to, a setting whose key is not repeated may as
well be put there before the rest. -/
theorem getD_findSome?_cons {place : String} {f : Setting → Option β}
    (hf : ∀ s : Setting, s.key ≠ place → f s = none) {s : Setting} {given : List Setting}
    (h : s.key ∉ given.map key) (d : β) :
    ((s :: given).findSome? f).getD d = (given.findSome? f).getD ((f s).getD d) := by
  rw [List.findSome?_cons]
  cases hs : f s with
  | none => rfl
  | some b =>
      have hplace : s.key = place := Decidable.byContradiction fun hne => by
        rw [hf s hne] at hs
        cases hs
      have hnone : given.findSome? f = none := by
        refine List.findSome?_eq_none_iff.2 fun s' hs' => hf s' fun heq => h ?_
        rw [hplace, ← heq]
        exact List.mem_map_of_mem hs'
      rw [hnone]
      rfl

theorem writable_value (s : Setting) : s.value.Writable := by
  cases s with
  | defaultTitle title => exact .string title
  | indentWidth width => exact .natural width.toNat
  | inlineImports on => exact .bool on
  | emitSidecars on => exact .bool on

theorem isText_compact (given : List Setting) :
    Json.IsText (.object (given.map member)) (Json.object (given.map member)).compact := by
  refine Json.Writable.isText_compact (.object fun m hm => ?_)
  obtain ⟨s, -, rfl⟩ := List.mem_map.1 hm
  exact s.writable_value

end Setting

namespace Config

def override (c : Config) (s : Setting) : Config where
  defaultTitle := s.title?.getD c.defaultTitle
  indentWidth := s.width?.getD c.indentWidth
  inlineImports := s.imports?.getD c.inlineImports
  emitSidecars := s.sidecars?.getD c.emitSidecars

def overridden (c : Config) (given : List Setting) : Config where
  defaultTitle := (given.findSome? Setting.title?).getD c.defaultTitle
  indentWidth := (given.findSome? Setting.width?).getD c.indentWidth
  inlineImports := (given.findSome? Setting.imports?).getD c.inlineImports
  emitSidecars := (given.findSome? Setting.sidecars?).getD c.emitSidecars

structure IsValid (c : Config) : Prop where
  title : Text.trim c.defaultTitle.toList ≠ []
  width : c.indentWidth ≤ maxIndentWidth

/-- A text is taken for settings: it gives them if they are valid, and is refused for the first one
that is not. -/
structure TakenFor (text : String) (c : Config) : Prop where
  accepted : c.IsValid → parse text = .ok c
  blankTitle : Text.trim c.defaultTitle.toList = [] →
    ∃ e, parse text = .error e ∧ e.field? = some "default_title"
  tooWide : Text.trim c.defaultTitle.toList ≠ [] → maxIndentWidth < c.indentWidth →
    ∃ e, parse text = .error e ∧ e.field? = some "indent_width"

theorem set?_setting (c : Config) (s : Setting) :
    c.set? s.key s.value = some (c.override s) := by
  cases s with
  | defaultTitle title => rfl
  | indentWidth width =>
      have hword : (Json.natural width.toNat).asWord? = some width.toNat :=
        if_pos width.toNat_lt
      simp only [set?, Setting.key, Setting.value, hword]
      rfl
  | inlineImports on => rfl
  | emitSidecars on => rfl

theorem exists_setting_of_set? {c c' : Config} {key : String} {v : Json}
    (h : c.set? key v = some c') : ∃ s : Setting, s.member = (key, v) := by
  unfold set? at h
  split at h
  · cases v <;> simp [Json.asString?] at h
    next title => exact ⟨.defaultTitle title, rfl⟩
  · cases v <;> simp [Json.asWord?] at h
    next n =>
      refine ⟨.indentWidth (.ofNat n), ?_⟩
      simp [Setting.member, Setting.key, Setting.value, Nat.mod_eq_of_lt h.1]
  · cases v <;> simp [Json.asBool?] at h
    next on => exact ⟨.inlineImports on, rfl⟩
  · cases v <;> simp [Json.asBool?] at h
    next on => exact ⟨.emitSidecars on, rfl⟩
  · cases h

theorem overridden_cons (c : Config) {s : Setting} {given : List Setting}
    (h : s.key ∉ given.map Setting.key) :
    c.overridden (s :: given) = (c.override s).overridden given := by
  simp only [overridden, override, mk.injEq]
  refine ⟨Setting.getD_findSome?_cons (fun s (_ : s.key ≠ "default_title") => ?_) h _,
    Setting.getD_findSome?_cons (fun s (_ : s.key ≠ "indent_width") => ?_) h _,
    Setting.getD_findSome?_cons (fun s (_ : s.key ≠ "inline_imports") => ?_) h _,
    Setting.getD_findSome?_cons (fun s (_ : s.key ≠ "emit_sidecars") => ?_) h _⟩
  all_goals cases s <;> trivial

theorem lookup_eq_none_iff_key {members : List (String × Json)} {key : String} :
    members.lookup key = none ↔ key ∉ members.map Prod.fst := by
  rw [List.lookup_eq_none_iff, List.mem_map, not_exists]
  simp only [bne_iff_ne, not_and, ne_comm, ne_eq]

theorem setAll?_settings (c : Config) {given : List Setting}
    (h : (given.map Setting.key).Nodup) :
    c.setAll? (given.map Setting.member) = some (c.overridden given) := by
  induction given generalizing c with
  | nil => rfl
  | cons s given ih =>
      obtain ⟨hs, hgiven⟩ := List.nodup_cons.1 h
      have hlookup : (given.map Setting.member).lookup s.key = none := by
        rw [lookup_eq_none_iff_key, List.map_map]
        exact hs
      calc c.setAll? ((s :: given).map Setting.member)
          = (c.set? s.key s.value).bind (·.setAll? (given.map Setting.member)) := by
            simp [setAll?, Setting.member, hlookup]
        _ = some ((c.override s).overridden given) := by
            rw [set?_setting, Option.bind_some, ih _ hgiven]
        _ = some (c.overridden (s :: given)) := by rw [overridden_cons c hs]

theorem exists_settings_of_setAll? {c c' : Config} {members : List (String × Json)}
    (h : c.setAll? members = some c') :
    (members.map Prod.fst).Nodup ∧ ∀ m ∈ members, ∃ s : Setting, s.member = m := by
  induction members generalizing c with
  | nil => simp
  | cons m members ih =>
      rw [setAll?] at h
      split at h
      · cases h
      · next hlookup =>
          obtain ⟨c₁, hset, hmore⟩ := Option.bind_eq_some_iff.1 h
          obtain ⟨hnodup, htyped⟩ := ih hmore
          rw [Bool.not_eq_true, Option.isSome_eq_false_iff, Option.isNone_iff_eq_none,
            lookup_eq_none_iff_key] at hlookup
          exact ⟨List.nodup_cons.2 ⟨hlookup, hnodup⟩,
            List.forall_mem_cons.2 ⟨exists_setting_of_set? hset, htyped⟩⟩

theorem validate_eq_ok_iff {c c' : Config} : c.validate = .ok c' ↔ c' = c ∧ c.IsValid := by
  have hblank : Text.isBlankText c.defaultTitle.toList = true ↔
      Text.trim c.defaultTitle.toList = [] := Text.trim_eq_nil_iff.symm
  unfold validate
  split
  · next h => exact ⟨nofun, fun hc => absurd (hblank.1 h) hc.2.title⟩
  · next htitle =>
    split
    · next h => exact ⟨nofun, fun hc => absurd hc.2.width (Nat.not_le_of_lt h)⟩
    · next hwidth =>
      constructor
      · intro h
        cases h
        exact ⟨rfl, fun h => htitle (hblank.2 h), Nat.le_of_not_lt hwidth⟩
      · intro h
        rw [h.1]

theorem takenFor_of_parse {text : String} {c : Config} (h : parse text = c.validate) :
    TakenFor text c where
  accepted hvalid := h.trans (validate_eq_ok_iff.2 ⟨rfl, hvalid⟩)
  blankTitle htitle := by
    refine ⟨.blankTitle, ?_, rfl⟩
    rw [h, validate, if_pos (Text.trim_eq_nil_iff.1 htitle)]
  tooWide htitle hwidth := by
    refine ⟨.indentTooWide c.indentWidth, ?_, rfl⟩
    rw [h, validate, if_neg (mt Text.trim_eq_nil_iff.2 htitle), if_pos hwidth]

theorem parse_of_isText {members : List (String × Json)} {text : String}
    (h : Json.IsText (.object members) text) :
    parse text = ((default.setAll? members).elim (.error .invalidJson) validate) := by
  rw [parse, Json.parse?_of_isText h, Option.bind_some, ofJson?]
  cases default.setAll? members with
  | none => rfl
  | some c => rfl

theorem isValid_of_parse {text : String} {c : Config} (h : parse text = .ok c) : c.IsValid := by
  unfold parse at h
  split at h
  · cases h
  · obtain ⟨rfl, hvalid⟩ := validate_eq_ok_iff.1 h
    exact hvalid

def settings (c : Config) : List Setting :=
  [.defaultTitle c.defaultTitle, .indentWidth (.ofNat c.indentWidth),
    .inlineImports c.inlineImports, .emitSidecars c.emitSidecars]

theorem IsValid.toNat_width {c : Config} (h : c.IsValid) :
    (UInt64.ofNat c.indentWidth).toNat = c.indentWidth :=
  UInt64.toNat_ofNat_of_lt (Nat.lt_of_le_of_lt h.width (by decide))

theorem IsValid.toJson_eq {c : Config} (h : c.IsValid) :
    c.toJson = .object (c.settings.map Setting.member) := by
  simp [toJson, settings, Setting.member, Setting.key, Setting.value, h.toNat_width]

theorem IsValid.overridden_settings {c : Config} (h : c.IsValid) (c' : Config) :
    c'.overridden c.settings = c := by
  simp [overridden, settings, List.findSome?_cons, Setting.title?, Setting.width?,
    Setting.imports?, Setting.sidecars?, h.toNat_width]

theorem IsValid.parse_compact_toJson {c : Config} (h : c.IsValid) :
    parse c.toJson.compact = .ok c := by
  have hkeys : (c.settings.map Setting.key).Nodup := by
    change keys.Nodup
    decide
  have htext : Json.IsText (.object (c.settings.map Setting.member)) c.toJson.compact := by
    rw [h.toJson_eq]
    exact Setting.isText_compact c.settings
  rw [parse_of_isText htext, setAll?_settings default hkeys, h.overridden_settings]
  exact validate_eq_ok_iff.2 ⟨rfl, h⟩

theorem isText_escaped_settings :
    Json.IsText (.object ([.emitSidecars false, .defaultTitle "😀"].map Setting.member))
      " \x7b \"emit_sidecars\" : false,\n\"\\u0064efault_title\":\"\\uD83D\\uDE00\"\x7d" := by
  have hspace : Json.IsSpaces [' '] := by simp [Json.IsSpaces]
  have hline : Json.IsSpaces ['\n'] := by simp [Json.IsSpaces]
  have hfirst := Json.Derives.member hspace (Json.stringText_escaped "emit_sidecars".toList) hspace
    (.item hspace (.scalar .falseWord) Json.isSpaces_nil)
  have hletter : Json.CodeUnit 0x64 ['0', '0', '6', '4'] :=
    .digits (x := 0) (y := 0) (z := 6) (w := 4) rfl rfl rfl rfl
  have hkey := Json.StringText.code (c := 'd') hletter (Json.stringText_escaped "efault_title".toList)
  have hhigh : Json.CodeUnit 0xD83D ['D', '8', '3', 'D'] :=
    .digits (x := 13) (y := 8) (z := 3) (w := 13) rfl rfl rfl rfl
  have hlow : Json.CodeUnit 0xDE00 ['D', 'E', '0', '0'] :=
    .digits (x := 13) (y := 14) (z := 0) (w := 0) rfl rfl rfl rfl
  have htitle : Json.StringText ['😀'] _ :=
    .surrogates (by decide) (by decide) (by decide) hhigh hlow .nil
  have hsecond := Json.Derives.member hline hkey Json.isSpaces_nil
    (.item Json.isSpaces_nil (.scalar (.string htitle)) Json.isSpaces_nil)
  have hobject := Json.Derives.object (.nextMember hfirst (.lastMember hsecond))
  exact .item hspace hobject Json.isSpaces_nil

/-- An object of settings without a repeated key, in any JSON text of it, is taken for the default
settings with the given ones in their places. An object in which a key is repeated or unknown, or a
value is not of the type of its setting, is refused as a whole. So valid settings are read back from
what is written of them, and no others are accepted from any text. -/
theorem takenFor_overridden_of_isText :
    (∀ (given : List Setting) (text : String), (given.map Setting.key).Nodup →
      Json.IsText (.object (given.map Setting.member)) text →
        TakenFor text (default.overridden given)) ∧
    (∀ (members : List (String × Json)) (text : String), Json.IsText (.object members) text →
      ¬ (members.map Prod.fst).Nodup ∨ (∃ m ∈ members, ∀ s : Setting, s.member ≠ m) →
        parse text = .error .invalidJson) ∧
    (∀ c : Config, c.IsValid → parse c.toJson.compact = .ok c) ∧
    (∀ (text : String) (c : Config), parse text = .ok c → c.IsValid) := by
  refine ⟨fun given text hkeys htext => ?_, fun members text htext hbad => ?_,
    fun c => IsValid.parse_compact_toJson, fun text c => isValid_of_parse⟩
  · apply takenFor_of_parse
    rw [parse_of_isText htext, setAll?_settings default hkeys]
    rfl
  · rw [parse_of_isText htext]
    cases hset : default.setAll? members with
    | none => rfl
    | some c =>
        obtain ⟨hnodup, htyped⟩ := exists_settings_of_setAll? hset
        rcases hbad with hrepeated | ⟨m, hm, hother⟩
        · exact absurd hnodup hrepeated
        · obtain ⟨s, hs⟩ := htyped m hm
          exact absurd hs (hother s)

theorem takenFor_overridden_of_isText_escaped :
    parse " \x7b \"emit_sidecars\" : false,\n\"\\u0064efault_title\":\"\\uD83D\\uDE00\"\x7d" =
      .ok ⟨"😀", 2, true, false⟩ ∧
    (∃ e, parse "\x7b\"indent_width\":9,\"default_title\":\"Docs\"\x7d" = .error e ∧
      e.field? = some "indent_width") ∧
    parse "\x7b\"indent_width\":true\x7d" = .error .invalidJson := by
  have hwide := takenFor_overridden_of_isText.1 [.indentWidth 9, .defaultTitle "Docs"] _
    (by decide) (Setting.isText_compact _)
  have hother := takenFor_overridden_of_isText.2.1 [("indent_width", .bool true)] _
    (Json.Writable.isText_compact (.object (List.forall_mem_singleton.2 (.bool true))))
    (.inr ⟨_, List.mem_singleton_self _, fun s => by
      cases s <;> simp [Setting.member, Setting.key, Setting.value]⟩)
  exact ⟨(takenFor_overridden_of_isText.1 _ _ (by decide) isText_escaped_settings).accepted
    ⟨by decide, by decide⟩, hwide.tooWide (by decide) (by decide), hother⟩

end Config

end EnglishPages
