import EnglishPages.Command.Run
import EnglishPages.Proofs.JsonWriting

/-!
What a build says of its outputs and diagnostics. For tools it prints a JSON text, in which both are
arrays in their order. For people every diagnostic starts with a line of its own, and a line for
each output follows behind all of them.
-/

namespace EnglishPages

def Span.ShownBy (s : Span) (v : Json) : Prop :=
  v.member? "start" = some (.natural s.start) ∧ v.member? "end" = some (.natural s.stop)

theorem Span.shownBy_sorted (s : Span) : s.ShownBy s.toJson.sorted := by
  have hmember := Json.member?_sorted [("start", .natural s.start), ("end", .natural s.stop)]
    (by simp)
  exact ⟨(hmember "start").trans rfl, (hmember "end").trans rfl⟩

namespace Diagnostic

/-- An object has the parts of a diagnostic as members, in whatever order, and no member for a part
that is absent. -/
structure ShownBy (d : Diagnostic) (v : Json) : Prop where
  id : v.member? "id" = some (.string d.id)
  severity : v.member? "severity" = some (.string d.severity.name)
  message : v.member? "message" = some (.string d.message)
  span : Option.Rel Span.ShownBy d.span (v.member? "span")
  context : Option.Rel
    (fun details v => ∃ members, v = .object members ∧
      members.Perm (details.map fun e => (e.1, .string e.2)))
    d.context (v.member? "context")

theorem member?_sorted_toJson (d : Diagnostic) (key : String) :
    d.toJson.sorted.member? key = (d.toJson.member? key).map Json.sorted := by
  refine Json.member?_sorted _ ?_ key
  obtain ⟨id, severity, message, span, context⟩ := d
  cases span <;> cases context <;> simp [Json.optional]

theorem shownBy_sorted (d : Diagnostic) : d.ShownBy d.toJson.sorted where
  id := (d.member?_sorted_toJson "id").trans rfl
  severity := (d.member?_sorted_toJson "severity").trans rfl
  message := (d.member?_sorted_toJson "message").trans rfl
  span := by
    rw [member?_sorted_toJson]
    obtain ⟨id, severity, message, span, context⟩ := d
    cases span with
    | none => cases context <;> exact .none
    | some s => exact .some s.shownBy_sorted
  context := by
    rw [member?_sorted_toJson]
    obtain ⟨id, severity, message, span, context⟩ := d
    cases context with
    | none => cases span <;> exact .none
    | some details =>
        obtain ⟨members, hsorted, hperm⟩ :=
          Json.exists_sorted_object (details.map fun e => (e.1, .string e.2))
        rw [List.map_map] at hperm
        cases span <;> exact .some ⟨members, hsorted, hperm⟩

theorem writable_toJson (d : Diagnostic) : d.toJson.Writable := by
  obtain ⟨id, severity, message, span, context⟩ := d
  have hspan (s : Span) : s.toJson.Writable :=
    .object (by simp [Json.Writable.natural])
  have hcontext (details : List (String × String)) :
      (Json.object (details.map fun e => (e.1, .string e.2))).Writable := by
    refine .object fun m hm => ?_
    obtain ⟨e, -, rfl⟩ := List.mem_map.1 hm
    exact .string e.2
  refine .object ?_
  cases span <;> cases context <;> simp [Json.optional, Json.Writable.string, hspan, hcontext]

end Diagnostic

namespace Command

/-- The outcome tells which page was written, which outputs of imports were, and all diagnostics. -/
def Reports (file out : Path) (sidecars : List Path) (ds : List Diagnostic) (o : Outcome) :
    Format → Prop
  | .json => ∃ report items, Json.IsText report o.stdout ∧
      report.member? "success" = some (.bool true) ∧
      report.member? "output" = some (.string out.text) ∧
      report.member? "sidecars" = some (.array (sidecars.map fun p => .string p.text)) ∧
      report.member? "diagnostics" = some (.array items) ∧
      List.Forall₂ Diagnostic.ShownBy ds items
  | .pretty => ∃ (details : Diagnostic → List String) (counts : List String),
      o.stderr = Text.terminated
        ((ds.flatMap fun d =>
          ("[" ++ d.id ++ "] " ++ heading d.severity ++ ": " ++ d.message) :: details d) ++
        counts ++ ["compiled " ++ file.text ++ " -> " ++ out.text] ++
        sidecars.map fun p => "  wrote " ++ p.text)

theorem reports_buildReport (format : Format) (file out : Path) (sidecars : List Path)
    (ds : List Diagnostic) :
    Reports file out sidecars ds (buildReport format file out sidecars ds) format := by
  cases format with
  | pretty => exact ⟨_, summaryLines ds, rfl⟩
  | json =>
      have hsidecars : (Json.ofStrings (sidecars.map Path.text)).Writable :=
        .array_map .string _
      have hds : (diagnosticsJson ds).Writable := .array_map Diagnostic.writable_toJson ds
      have hmember := Json.member?_sorted [("success", .bool true), ("output", .string out.text),
        ("sidecars", .ofStrings (sidecars.map Path.text)), ("diagnostics", diagnosticsJson ds)]
        (by simp)
      refine ⟨_, ds.map fun d => d.toJson.sorted,
        Json.Writable.isText_pretty (.sorted (.object ?_))
          (List.forall_mem_singleton.2 (by decide)),
        (hmember "success").trans rfl, (hmember "output").trans rfl, ?_, ?_, ?_⟩
      · simp [Json.Writable.bool, Json.Writable.string, hsidecars, hds]
      · rw [hmember]
        change some (Json.sorted (.array _)) = _
        rw [Json.sorted_array, List.map_map, List.map_map]
        rfl
      · rw [hmember]
        change some (Json.sorted (.array _)) = _
        rw [Json.sorted_array, List.map_map]
        rfl
      · rw [List.forall₂_map_right_iff, List.forall₂_same]
        exact fun d _ => d.shownBy_sorted

end Command

end EnglishPages
