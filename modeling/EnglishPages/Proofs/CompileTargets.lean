import EnglishPages.Proofs.CommandRuns

/-!
What the dialect commands do to the file they compile. A target is refused by its components, and
written to by the place that it leads to. The two agree on the target that is chosen when none is
given: if it leads to the input, it is the input's path, and is refused. A target that is given may
lead to the input under other components, and then the output takes the place of the input.
-/

namespace EnglishPages

namespace FileTree

variable {t t' : FileTree} {p : Path} {l : Location}

theorem SameDirectories.read (h : SameDirectories t t') (hl : t.locate p = .ok l)
    (hentry : t'.entry? l = t.entry? l) : t'.read p = t.read p := by
  simp only [FileTree.read, hl, h.locate.2 hl, bind, Except.bind, hentry]

theorem readText_locate {source : String} (h : t.readText p = .ok source) :
    ∃ l bytes, t.locate p = .ok l ∧ t.entry? l = some (.file bytes) := by
  obtain ⟨bytes, hread, -⟩ := readText_eq_ok.1 h
  obtain ⟨l, hl, hfile⟩ := read_eq_ok.1 hread
  exact ⟨l, bytes, hl, hfile⟩

end FileTree

theorem Path.same_self (p : Path) : p.same p = true :=
  beq_self_eq_true p.components

namespace Command

open FileTree

/-- Another spelling of a file: a path of other components that leads to its place. -/
def Respells (t : FileTree) (target file : Path) : Prop :=
  target.same file = false ∧ ∃ l, t.target? target = some l ∧ t.locate file = .ok l

variable {t : FileTree} {d : Dialect} {file : Path}

theorem sidecar_eq_self {source : String} {l : Location} (hsource : t.readText file = .ok source)
    (htarget : t.target? (d.sidecar file) = some l) (hl : t.locate file = .ok l) :
    d.sidecar file = file := by
  cases hnamed : file.named? with
  | none => simp only [Dialect.sidecar, Path.withExtension, hnamed]
  | some n =>
      have hn := Path.named?_eq_some_iff.1 hnamed
      obtain ⟨k, bytes, hk, hfile⟩ := readText_locate hsource
      obtain rfl := Except.ok.inj (hl.symm.trans hk)
      obtain ⟨hafter, directory, -, hplace⟩ := locate_file hn hl hfile
      obtain ⟨hpath, directory', -, hplace'⟩ :=
        target?_withExtension hn (Path.isExtension_outputExtension d) htarget
      obtain ⟨-, hname⟩ := Location.child_inj.1 (hplace.symm.trans hplace')
      exact hpath.trans (hname ▸ hn.eq_sibling hafter)

theorem respells_of_target {out : Option Path} {source : String} {l : Location}
    (hsource : t.readText file = .ok source)
    (hsame : (out.getD (d.sidecar file)).same file = false)
    (htarget : t.target? (out.getD (d.sidecar file)) = some l) (hl : t.locate file = .ok l) :
    ∃ target, out = some target ∧ Respells t target file := by
  cases out with
  | some target => exact ⟨target, rfl, hsame, l, htarget, hl⟩
  | none =>
      have heq : d.sidecar file = file := sidecar_eq_self hsource htarget hl
      rw [Option.getD_none, heq, Path.same_self] at hsame
      cases hsame

theorem read_writeAll_of_ne {target : Path} {code : String} {l k : Location}
    (htarget : t.target? target = some l) (hk : t.locate file = .ok k) (hne : k ≠ l) :
    (t.writeAll [(target, code)]).read file = t.read file := by
  refine (sameDirectories_writeAll t _).read hk (t.entry?_writeAll_of_forall ?_)
  rintro w hw hwk
  obtain rfl := List.mem_singleton.1 hw
  exact hne (Option.some.inj (hwk.symm.trans htarget))

/-- After a dialect command the input holds what it held, unless the output was not printed and went
to another spelling of the input; then the input holds the output. -/
theorem input_of_compile (default : Format) (arguments : List String) (t : FileTree)
    {format : Option Format} {named : Option Path} {d : Dialect} {file : Path} {out : Option Path}
    {toStdout : Bool}
    (hparse : Invocation.parse arguments =
      .ok ⟨format, named, .compile d file out toStdout⟩) :
    let after := ((run default arguments : StateM FileTree Outcome).run t).2
    ((toStdout = true ∨ ∀ target, out = some target → ¬ Respells t target file) →
      after.read file = t.read file) ∧
    ∀ target source, toStdout = false → out = some target → Respells t target file →
      t.readText file = .ok source → after.read file = .ok (d.compile source).toUTF8 := by
  intro after
  have hafter : after = t.writeAll (compileWrites t d file out toStdout) := by
    obtain ⟨o, hrun, -⟩ := run_compileFile t (format.getD default) d file out toStdout
    exact (congrArg Prod.snd (run_of_parse default t hparse)).trans (congrArg Prod.snd hrun)
  rw [hafter]
  constructor
  · intro hkept
    rw [compileWrites]
    cases hsource : t.readText file with
    | error e => rfl
    | ok source =>
        simp only
        split
        · rfl
        · next hwrite =>
            obtain ⟨hstdout, hsame⟩ : toStdout = false ∧
                (out.getD (d.sidecar file)).same file = false := by
              simpa using hwrite
            cases htarget : t.target? (out.getD (d.sidecar file)) with
            | none => simp only [writeAll, htarget]
            | some l =>
                obtain ⟨k, bytes, hk, -⟩ := readText_locate hsource
                refine read_writeAll_of_ne htarget hk ?_
                rintro rfl
                obtain ⟨target, hout, hrespells⟩ := respells_of_target hsource hsame htarget hk
                rcases hkept with hprinted | hkept
                · rw [hstdout] at hprinted
                  cases hprinted
                · exact hkept target hout hrespells
  · rintro target source rfl rfl ⟨hsame, l, htarget, hl⟩ hsource
    have hwrites : compileWrites t d file (some target) false = [(target, d.compile source)] := by
      simp [compileWrites, hsource, hsame]
    rw [hwrites]
    refine read_eq_ok.2 ⟨l, (sameDirectories_writeAll t _).locate.2 hl, ?_⟩
    rw [writeAll, htarget]
    exact (entry?_put (target?_eq_some.1 htarget).2.2 _ l).trans (if_pos rfl)

/-- A target beside the input, spelled by a detour through its directory. -/
theorem input_of_compile_detour :
    let t : FileTree := ⟨⟨["work"]⟩, [(⟨["a.seng", "work"]⟩, .file "log(1)".toUTF8)]⟩
    let arguments := ["seng", "a.seng", "-o", "../work/a.js"]
    let after := ((run .json arguments : StateM FileTree Outcome).run t).2
    Invocation.parse arguments =
      .ok ⟨none, none, .compile .script ⟨"a.seng"⟩ (some ⟨"../work/a.js"⟩) false⟩ ∧
    ¬ Respells t ⟨"../work/a.js"⟩ ⟨"a.seng"⟩ ∧
    after.read ⟨"../work/a.js"⟩ = .ok "console.log(1);\n".toUTF8 ∧
    after.read ⟨"a.seng"⟩ = .ok "log(1)".toUTF8 := by
  intro t arguments after
  have hplace : t.target? ⟨"../work/a.js"⟩ = some ⟨["a.js", "work"]⟩ := rfl
  have hfile : t.locate ⟨"a.seng"⟩ = .ok ⟨["a.seng", "work"]⟩ := rfl
  have hother : ¬ Respells t ⟨"../work/a.js"⟩ ⟨"a.seng"⟩ := by
    rintro ⟨-, l, htarget, hl⟩
    obtain rfl := Option.some.inj (hplace.symm.trans htarget)
    exact absurd (Except.ok.inj (hfile.symm.trans hl)) (by decide)
  refine ⟨rfl, hother, rfl, ?_⟩
  refine ((input_of_compile .json arguments t rfl).1 (.inr ?_)).trans rfl
  intro target htarget
  obtain rfl := Option.some.inj htarget
  exact hother

/-- A leading dot is enough to pass the comparison of components: the script is replaced by its own
output. -/
theorem compile_overwrites_input :
    let t : FileTree := ⟨⟨["work"]⟩, [(⟨["a.seng", "work"]⟩, .file "log(1)".toUTF8)]⟩
    let arguments := ["seng", "a.seng", "-o", "./a.seng"]
    let outcome := ((run .json arguments : StateM FileTree Outcome).run t).1
    let after := ((run .json arguments : StateM FileTree Outcome).run t).2
    Invocation.parse arguments =
      .ok ⟨none, none, .compile .script ⟨"a.seng"⟩ (some ⟨"./a.seng"⟩) false⟩ ∧
    outcome.exit = 0 ∧ t.read ⟨"a.seng"⟩ = .ok "log(1)".toUTF8 ∧
    after.read ⟨"a.seng"⟩ = .ok "console.log(1);\n".toUTF8 ∧
    after.read ⟨"a.seng"⟩ ≠ t.read ⟨"a.seng"⟩ := by
  intro t arguments outcome after
  have hbefore : t.read ⟨"a.seng"⟩ = .ok "log(1)".toUTF8 := rfl
  have hafter : after.read ⟨"a.seng"⟩ = .ok "console.log(1);\n".toUTF8 := rfl
  refine ⟨rfl, rfl, hbefore, hafter, ?_⟩
  rw [hbefore, hafter]
  exact fun heq => absurd (Except.ok.inj heq) (by decide)

end Command

end EnglishPages
