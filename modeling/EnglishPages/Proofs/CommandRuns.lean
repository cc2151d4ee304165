import EnglishPages.Command.Run
import EnglishPages.Proofs.ImportResolution
import EnglishPages.Proofs.TreeAccess
import Mathlib.Data.List.Basic

/-!
What a command does to a file tree, in one equation for each command.

Everything that a command reads, it reads before it writes, and reading leaves the tree as it is: a
page is compiled against the tree that the command finds. What it writes is a list of writes that is
fixed by that tree. A build that fails has none.
-/

namespace EnglishPages

namespace FileTree

def loader (t : FileTree) : Loader := fun path =>
  match t.readText path with
  | .ok source => .ok source
  | .error cause => .error (.unreadable path cause)

end FileTree

namespace Import

theorem resolve_congr {base : Path} {load load' : Loader} {i : Import}
    (h : ∀ path d, i.path = some path → i.dialect? = some d →
      load (base.join ⟨path⟩) = load' (base.join ⟨path⟩)) :
    i.resolve base load = i.resolve base load' := by
  simp only [resolve]
  cases hpath : i.path with
  | none => rfl
  | some path =>
      cases hdialect : i.dialect? with
      | none => rfl
      | some d => simp only [h path d hpath hdialect]

end Import

namespace Node

variable {base : Path} {load load' : Loader}

theorem resolve_congr {n : Node}
    (h : ∀ i ∈ (n :: n.functionBody).filterMap import?,
      i.resolve base load = i.resolve base load') :
    n.resolve base load = n.resolve base load' ∧
      n.resolutionWarnings base load = n.resolutionWarnings base load' := by
  cases n with
  | importing i =>
      have hi := h i (by simp [import?])
      simp only [resolve, resolutionWarnings, resolveImport, importWarnings, hi, and_self]
  | function name children span =>
      have hchild : ∀ m ∈ children, m.resolveImport base load = m.resolveImport base load' ∧
          m.importWarnings base load = m.importWarnings base load' := by
        intro m hm
        cases m with
        | importing i =>
            have hi := h i (List.mem_filterMap.2 ⟨.importing i, List.mem_cons_of_mem _ hm, rfl⟩)
            simp only [resolveImport, importWarnings, hi, and_self]
        | page | function | title | script | element => exact ⟨rfl, rfl⟩
      exact ⟨congrArg (function name · span) (List.map_congr_left fun m hm => (hchild m hm).1),
        List.flatMap_congr fun m hm => (hchild m hm).2⟩
  | page | title | script | element => exact ⟨rfl, rfl⟩

end Node

namespace Document

variable {base : Path} {load load' : Loader}

theorem mem_sourcePaths {d : Document} {i : Import} (hi : i ∈ d.imports) {path : String}
    (hpath : i.path = some path) {dialect : Dialect} (hdialect : i.dialect? = some dialect) :
    base.join ⟨path⟩ ∈ d.sourcePaths base :=
  List.mem_filterMap.2 ⟨i, hi, by simp only [hpath, hdialect]⟩

theorem compile_congr {d : Document} (h : ∀ p ∈ d.sourcePaths base, load p = load' p)
    (config : Config) : d.compile base load config = d.compile base load' config := by
  have hnode : ∀ n ∈ d.nodes, n.resolve base load = n.resolve base load' ∧
      n.resolutionWarnings base load = n.resolutionWarnings base load' := by
    intro n hn
    refine Node.resolve_congr fun i hi => Import.resolve_congr fun path dialect hpath hdialect => ?_
    exact h _ (mem_sourcePaths (List.mem_flatMap.2 ⟨n, hn, hi⟩) hpath hdialect)
  have hresolve : d.resolve base load = d.resolve base load' :=
    congrArg Document.mk (List.map_congr_left fun n hn => (hnode n hn).1)
  have hwarnings : d.resolutionWarnings base load = d.resolutionWarnings base load' :=
    List.flatMap_congr fun n hn => (hnode n hn).2
  simp only [compile, hresolve, hwarnings]

end Document

section Reading

variable (t : FileTree)

theorem run_bind {α β : Type} (x : StateM FileTree α) (f : α → StateM FileTree β) :
    (x >>= f).run t = (f (x.run t).1).run (x.run t).2 := rfl

theorem run_pure {α : Type} (a : α) : (pure a : StateM FileTree α).run t = (a, t) := rfl

theorem run_read (p : Path) :
    (Files.read p : StateM FileTree (Except FileError String)).run t = (t.readText p, t) := rfl

theorem run_readAll (paths : List Path) :
    (readAll paths : StateM FileTree _).run t = (paths.map fun p => (p, t.readText p), t) := by
  induction paths with
  | nil => rfl
  | cons p paths ih =>
      simp only [readAll, run_bind, run_read, ih]
      rfl

theorem ofReads_eq_loader {paths : List Path} {p : Path} (hp : p ∈ paths) :
    Loader.ofReads (paths.map fun p => (p, t.readText p)) p = t.loader p := by
  have hfind : (paths.map fun p => (p, t.readText p)).find? (fun r => r.1 == p) =
      some (p, t.readText p) := by
    induction paths with
    | nil => cases hp
    | cons q paths ih =>
        by_cases hq : q = p
        · simp [hq]
        · have hp : p ∈ paths := (List.mem_cons.1 hp).resolve_left fun heq => hq heq.symm
          simpa [hq] using ih hp
  rw [Loader.ofReads, hfind, FileTree.loader]
  cases t.readText p <;> rfl

/-- Reading the imports beforehand makes no difference to what is compiled. -/
theorem run_compileFiles (source : String) (base : Path) (config : Config) :
    (compileFiles source base config : StateM FileTree _).run t =
      (compile source base t.loader config, t) := by
  rw [compileFiles, compile]
  cases Document.parse source with
  | error e => rfl
  | ok d =>
      cases hinline : config.inlineImports with
      | false =>
          have hcompile : d.compile base (Loader.ofReads []) config =
              d.compile base t.loader config := by
            simp [Document.compile, hinline]
          simp only [Bool.false_eq_true, if_false, run_bind, run_pure, hcompile]
          rfl
      | true =>
          simp only [if_true, run_bind, run_readAll]
          have hcompile : d.compile base (Loader.ofReads
              ((d.sourcePaths base).map fun p => (p, t.readText p))) config =
                d.compile base t.loader config :=
            Document.compile_congr (fun p hp => ofReads_eq_loader t hp) config
          rw [hcompile]
          rfl

end Reading

namespace Command

def settings (t : FileTree) (named : Option Path) (directory : Path) : Except Outcome Config :=
  ((loadConfig named directory : StateM FileTree _).run t).1

section Settings

variable (t : FileTree) (named : Option Path) (directory : Path)

theorem run_load (path : Path) : ((Config.load path : StateM FileTree _).run t).2 = t := by
  simp only [Config.load, run_bind, run_read]
  cases t.readText path <;> rfl

theorem run_discover : ((Config.discover directory : StateM FileTree _).run t).2 = t := by
  simp only [Config.discover, run_bind, run_read]
  cases t.readText (directory.join ⟨Config.fileName⟩) with
  | ok text => rfl
  | error cause =>
      simp only
      split <;> rfl

theorem run_loadConfig :
    (loadConfig named directory : StateM FileTree _).run t = (settings t named directory, t) := by
  refine Prod.ext rfl ?_
  cases named with
  | none =>
      simp only [loadConfig, run_bind, run_discover]
      split <;> rfl
  | some path =>
      simp only [loadConfig, run_bind, run_load]
      split <;> rfl

variable {t named directory}

theorem exit_of_settings {o : Outcome} (h : settings t named directory = .error o) :
    o.exit = 1 := by
  rw [settings] at h
  cases named with
  | none =>
      simp only [loadConfig, run_bind] at h
      split at h
      · cases h
      · cases h
        rfl
  | some path =>
      simp only [loadConfig, run_bind] at h
      split at h
      · cases h
      · cases h
        rfl

end Settings

theorem run_write (t : FileTree) (p : Path) (text : String) :
    (Files.write p text : StateM FileTree (Except FileError Unit)).run t =
      match t.write p text.toUTF8 with
      | .ok t' => (.ok (), t')
      | .error e => (.error e, t) := rfl

theorem run_write_of_target {t : FileTree} {p : Path} {l : Location} (h : t.target? p = some l)
    (text : String) : (Files.write p text : StateM FileTree _).run t =
      (.ok (), t.put l (.file text.toUTF8)) := by
  rw [run_write, FileTree.write_of_target h]

theorem run_write_of_none {t : FileTree} {p : Path} (h : t.target? p = none) (text : String) :
    ∃ e, (Files.write p text : StateM FileTree _).run t = (.error e, t) := by
  obtain ⟨e, he⟩ := FileTree.write_of_none h
  exact ⟨e, by rw [run_write, he]⟩

def writable (t : FileTree) (writes : List (Path × String)) : List Path :=
  (writes.map Prod.fst).filter fun p => (t.target? p).isSome

/-- The outputs of imports that cannot be written, and where the imports stand. -/
def refused (t : FileTree) (base : Path) (is : List Import) : List (Path × Span) :=
  is.filterMap fun i => (sidecar? base i).bind fun w =>
    if (t.target? w.1).isSome then none else some (w.1, i.span)

def refusal (r : Path × Span) (cause : FileError) : Diagnostic :=
  ⟨"ENG3001", .warning, "could not write " ++ r.1.text ++ ": " ++ cause.message, some r.2, none⟩

theorem run_writeSidecars (base : Path) (is : List Import) (t : FileTree) :
    ∃ causes : List FileError, causes.length = (refused t base is).length ∧
      (writeSidecars base is : StateM FileTree _).run t =
        ((writable t (is.filterMap (sidecar? base)),
          List.zipWith refusal (refused t base is) causes),
         t.writeAll (is.filterMap (sidecar? base))) := by
  induction is generalizing t with
  | nil => exact ⟨[], rfl, rfl⟩
  | cons i is ih =>
      rw [writeSidecars]
      cases hi : sidecar? base i with
      | none =>
          obtain ⟨causes, hlength, hrun⟩ := ih t
          refine ⟨causes, by simpa [refused, hi] using hlength, ?_⟩
          simpa [refused, hi] using hrun
      | some w =>
          obtain ⟨target, text⟩ := w
          simp only [run_bind]
          cases htarget : t.target? target with
          | some l =>
              have hsame := FileTree.sameDirectories_put
                (FileTree.target?_eq_some.1 htarget).2.2 text.toUTF8
              obtain ⟨causes, hlength, hrun⟩ := ih (t.put l (.file text.toUTF8))
              have hrefused : refused (t.put l (.file text.toUTF8)) base is = refused t base is := by
                simp only [refused, hsame.target?]
              have hwritable : ∀ writes, writable (t.put l (.file text.toUTF8)) writes =
                  writable t writes := by
                intro writes
                simp only [writable, hsame.target?]
              rw [hrefused] at hlength hrun
              rw [hwritable] at hrun
              refine ⟨causes, by simpa [refused, hi, htarget] using hlength, ?_⟩
              rw [run_write_of_target htarget, hrun]
              simp [refused, writable, hi, htarget, FileTree.writeAll]
              rfl
          | none =>
              obtain ⟨causes, hlength, hrun⟩ := ih t
              obtain ⟨e, he⟩ := run_write_of_none htarget text
              refine ⟨e :: causes, by simpa [refused, hi, htarget] using hlength, ?_⟩
              rw [he, hrun]
              simp [refused, writable, hi, htarget, FileTree.writeAll]
              rfl

def emitted (config : Config) (c : Compilation) : List Import :=
  if config.emitSidecars then c.document.imports else []

section Build

variable {t : FileTree} {named : Option Path} {file : Path} {config : Config} {c : Compilation}

theorem run_writePage {page : Path} {l : Location} (hl : t.target? page = some l)
    (format : Format) (file base : Path) :
    ∃ causes : List FileError, causes.length = (refused t base (emitted config c)).length ∧
      (writePage format file page base config c : StateM FileTree _).run t =
        (buildReport format file page
          (writable t ((emitted config c).filterMap (sidecar? base)))
          (c.diagnostics ++ List.zipWith refusal (refused t base (emitted config c)) causes),
         t.writeAll ((page, c.html) :: (emitted config c).filterMap (sidecar? base))) := by
  have hsame := FileTree.sameDirectories_put (FileTree.target?_eq_some.1 hl).2.2 c.html.toUTF8
  obtain ⟨causes, hlength, hrun⟩ :=
    run_writeSidecars base (emitted config c) (t.put l (.file c.html.toUTF8))
  simp only [refused, writable, hsame.target?] at hlength hrun
  refine ⟨causes, hlength, ?_⟩
  have hreport : (writePage format file page base config c : StateM FileTree _).run t =
      let (result, after) := (writeSidecars base (emitted config c) : StateM FileTree _).run
        (t.put l (.file c.html.toUTF8))
      (buildReport format file page result.1 (c.diagnostics ++ result.2), after) := by
    simp only [writePage, emitted, run_bind, run_write_of_target hl]
    split <;> rfl
  rw [hreport, hrun, FileTree.writeAll, hl]
  rfl

/-- A page that can be built: it compiles, and there is a place to write it to. -/
structure Builds (t : FileTree) (named : Option Path) (file page : Path) (config : Config)
    (c : Compilation) : Prop where
  extension : file.extension? = some "heng"
  settings : settings t named (baseDirectory file) = .ok config
  compiles : ∃ source, t.readText file = .ok source ∧
    compile source (baseDirectory file) t.loader config = .ok c
  target : (t.target? page).isSome = true

theorem Builds.run_build (out : Option Path)
    (h : Builds t named file (out.getD (file.withExtension "html")) config c) (format : Format) :
    ∃ causes : List FileError,
      causes.length = (refused t (baseDirectory file) (emitted config c)).length ∧
      (build format named file out : StateM FileTree _).run t =
        (buildReport format file (out.getD (file.withExtension "html"))
          (writable t ((emitted config c).filterMap (sidecar? (baseDirectory file))))
          (c.diagnostics ++
            List.zipWith refusal (refused t (baseDirectory file) (emitted config c)) causes),
         t.writeAll ((out.getD (file.withExtension "html"), c.html) ::
           (emitted config c).filterMap (sidecar? (baseDirectory file)))) := by
  obtain ⟨source, hsource, hcompile⟩ := h.compiles
  obtain ⟨l, hl⟩ := Option.isSome_iff_exists.1 h.target
  have hbuild : (build format named file out : StateM FileTree _).run t =
      (writePage format file (out.getD (file.withExtension "html")) (baseDirectory file) config c :
        StateM FileTree _).run t := by
    rw [build, if_pos h.extension]
    simp only [run_bind, run_read, hsource, run_loadConfig, h.settings, run_compileFiles, hcompile]
  rw [hbuild]
  exact run_writePage hl format file (baseDirectory file)

theorem build_fails_or_builds (t : FileTree) (format : Format) (named : Option Path) (file : Path)
    (out : Option Path) :
    (∃ o : Outcome, o.exit = 1 ∧ (build format named file out : StateM FileTree _).run t = (o, t)) ∨
      ∃ config c, Builds t named file (out.getD (file.withExtension "html")) config c := by
  by_cases hext : file.extension? = some "heng"
  · simp only [build, if_pos hext, run_bind, run_read]
    cases hsource : t.readText file with
    | error e => exact .inl ⟨_, rfl, rfl⟩
    | ok source =>
        simp only [run_bind, run_loadConfig]
        cases hsettings : settings t named (baseDirectory file) with
        | error o => exact .inl ⟨o, exit_of_settings hsettings, rfl⟩
        | ok config =>
            simp only [run_bind, run_compileFiles]
            cases hcompile : compile source (baseDirectory file) t.loader config with
            | error e =>
                refine .inl ⟨parseFailure format e, ?_, rfl⟩
                cases format <;> rfl
            | ok c =>
                cases htarget : t.target? (out.getD (file.withExtension "html")) with
                | none =>
                    obtain ⟨e, he⟩ := run_write_of_none htarget c.html
                    refine .inl ⟨writeFailure (out.getD (file.withExtension "html")) e, rfl, ?_⟩
                    simp only [writePage, run_bind, he]
                    rfl
                | some l =>
                    refine .inr ⟨config, c, hext, hsettings, ⟨source, hsource, hcompile⟩, ?_⟩
                    rw [htarget]
                    rfl
  · refine .inl ⟨.failure ("expected a .heng file, got " ++ file.text) [], rfl, ?_⟩
    rw [build, if_neg hext]
    rfl

end Build

section CompileFile

variable (t : FileTree) (format : Format) (d : Dialect) (file : Path) (out : Option Path)
  (toStdout : Bool)

def compileWrites : List (Path × String) :=
  match t.readText file with
  | .error _ => []
  | .ok source =>
      if toStdout || (out.getD (d.sidecar file)).same file then []
      else [(out.getD (d.sidecar file), d.compile source)]

theorem run_compileFile :
    ∃ o : Outcome, (compileFile format d file out toStdout : StateM FileTree _).run t =
        (o, t.writeAll (compileWrites t d file out toStdout)) ∧
      (o.exit ≠ 0 → t.writeAll (compileWrites t d file out toStdout) = t) := by
  simp only [compileFile, compileWrites, run_bind, run_read]
  cases t.readText file with
  | error e => exact ⟨_, rfl, fun _ => rfl⟩
  | ok source =>
      cases toStdout with
      | true => exact ⟨_, rfl, fun _ => rfl⟩
      | false =>
          cases hsame : (out.getD (d.sidecar file)).same file with
          | true => exact ⟨_, rfl, fun _ => rfl⟩
          | false =>
              cases htarget : t.target? (out.getD (d.sidecar file)) with
              | none =>
                  obtain ⟨e, he⟩ := run_write_of_none htarget (d.compile source)
                  have hwrite : t.writeAll [(out.getD (d.sidecar file), d.compile source)] = t := by
                    simp only [FileTree.writeAll, htarget]
                  refine ⟨writeFailure (out.getD (d.sidecar file)) e, ?_, fun _ => hwrite⟩
                  simp only [Bool.false_eq_true, Bool.false_or, if_false, run_bind, he, hwrite]
                  rfl
              | some l =>
                  refine ⟨dialectReport format d file (out.getD (d.sidecar file)), ?_, ?_⟩
                  · simp only [Bool.false_eq_true, Bool.false_or, if_false, run_bind,
                      run_write_of_target htarget, FileTree.writeAll, htarget]
                    rfl
                  · intro hexit
                    cases format <;> exact absurd rfl hexit

theorem run_compileFile_stdout {source : String} (h : t.readText file = .ok source) :
    (compileFile format d file out true : StateM FileTree _).run t =
      (.print (d.compile source), t) := by
  simp only [compileFile, run_bind, run_read, h]
  rfl

end CompileFile

section Run

variable (default : Format) (t : FileTree)

theorem run_of_parse {arguments : List String} {i : Invocation}
    (h : Invocation.parse arguments = .ok i) :
    (run default arguments : StateM FileTree _).run t =
      (i.run default : StateM FileTree _).run t := by
  rw [run, h]

theorem tree_of_failed (arguments : List String)
    (h : ((run default arguments : StateM FileTree _).run t).1.exit ≠ 0) :
    ((run default arguments : StateM FileTree _).run t).2 = t := by
  cases hparse : Invocation.parse arguments with
  | error stop =>
      rw [run, hparse]
      rfl
  | ok i =>
      rw [run_of_parse default t hparse] at h ⊢
      rw [Invocation.run] at h ⊢
      cases hi : i.action with
      | build file out =>
          simp only [hi] at h ⊢
          rcases build_fails_or_builds t (i.format.getD default) i.config file out with
            ⟨o, -, ho⟩ | ⟨config, c, hbuilds⟩
          · rw [ho]
          · obtain ⟨causes, -, hrun⟩ := hbuilds.run_build out (i.format.getD default)
            rw [hrun] at h
            cases hformat : i.format.getD default <;> rw [hformat] at h <;> exact absurd rfl h
      | compile d file out toStdout =>
          simp only [hi] at h ⊢
          obtain ⟨o, hrun, hfail⟩ :=
            run_compileFile t (i.format.getD default) d file out toStdout
          rw [hrun] at h ⊢
          exact hfail h
      | tokens file =>
          simp only [tokens, run_bind, run_read]
          cases t.readText file <;> rfl
      | ast file =>
          simp only [ast, run_bind, run_read]
          cases t.readText file <;> rfl
      | explain id => rfl

end Run

end Command

end EnglishPages
