import EnglishPages.Proofs.BuildReports
import EnglishPages.Proofs.CommandRuns
import EnglishPages.Proofs.HeadImports

/-!
What a build leaves in the file tree. All files that it writes have one of three extensions, and the
extension is part of the place: the page and the outputs of its imports never meet, and no source is
touched.

The output of an import stands next to its source, under the name of the source with the other
extension. So outputs that go to one place come from one file, in whatever spelling the imports name
it, and have the same text: the last write decides nothing.
-/

namespace EnglishPages

namespace Dialect

theorem ofPath?_join {q : Path} {d : Dialect} (h : ofPath? q = some d) (p : Path) :
    ofPath? (p.join q) = some d := by
  rw [ofPath?, Path.extension?_join (ofPath?_eq_some_iff.1 h) p]
  exact ofExtension?_sourceExtension d

theorem outputExtension_inj {d d' : Dialect} (h : d.outputExtension = d'.outputExtension) :
    d = d' := by
  cases d <;> cases d' <;> first | rfl | exact absurd h (by decide)

end Dialect

namespace FileTree

variable {t : FileTree} {l : Location}

theorem extension?_of_target {p : Path} {old e : String} (hp : p.extension? = some old)
    (he : Path.IsExtension e) (h : t.target? (p.withExtension e) = some l) :
    l.extension? = some e := by
  obtain ⟨n, hn, -⟩ := Path.extension?_eq_some hp
  obtain ⟨-, directory, -, rfl⟩ := target?_withExtension hn he h
  change (Path.stemAndExtension (n.renamed e)).2 = some e
  rw [hn.stemAndExtension_renamed he]

theorem extension?_of_sidecar {p : Path} {d : Dialect} (hp : Dialect.ofPath? p = some d)
    (h : t.target? (d.sidecar p) = some l) : l.extension? = some d.outputExtension :=
  extension?_of_target (Dialect.ofPath?_eq_some_iff.1 hp) (Path.isExtension_outputExtension d) h

theorem source_of_sidecar {p : Path} {d : Dialect} {source : String}
    (hp : Dialect.ofPath? p = some d) (hsource : t.readText p = .ok source)
    (h : t.target? (d.sidecar p) = some l) :
    ∃ (directory : Location) (stem : String) (bytes : ByteArray),
      stem ≠ "" ∧ l = directory.child (stem ++ "." ++ d.outputExtension) ∧
      t.entry? (directory.child (stem ++ "." ++ d.sourceExtension)) = some (.file bytes) ∧
      String.fromUTF8? bytes = some source := by
  obtain ⟨n, hn, hext⟩ := Path.extension?_eq_some (Dialect.ofPath?_eq_some_iff.1 hp)
  obtain ⟨-, directory, hbefore, rfl⟩ :=
    target?_withExtension hn (Path.isExtension_outputExtension d) h
  obtain ⟨bytes, hread, htext⟩ := readText_eq_ok.1 hsource
  obtain ⟨k, hlocate, hfile⟩ := read_eq_ok.1 hread
  obtain ⟨-, directory', hbefore', rfl⟩ := locate_file hn hlocate hfile
  obtain rfl := Except.ok.inj (hbefore.symm.trans hbefore')
  obtain ⟨hname, -, -⟩ := Path.stemAndExtension_eq_some.1 (Prod.ext rfl hext)
  exact ⟨directory, (Path.stemAndExtension n.name).1, bytes, hn.stem_ne_empty, rfl,
    hname ▸ hfile, htext⟩

theorem source_unique {p q : Path} {d d' : Dialect} {source source' : String}
    (hp : Dialect.ofPath? p = some d) (hq : Dialect.ofPath? q = some d')
    (hsource : t.readText p = .ok source) (hsource' : t.readText q = .ok source')
    (h : t.target? (d.sidecar p) = some l) (h' : t.target? (d'.sidecar q) = some l) :
    d = d' ∧ source = source' := by
  obtain ⟨directory, stem, bytes, hstem, hl, hfile, htext⟩ := source_of_sidecar hp hsource h
  obtain ⟨directory', stem', bytes', hstem', hl', hfile', htext'⟩ :=
    source_of_sidecar hq hsource' h'
  obtain ⟨rfl, hname⟩ := Location.child_inj.1 (hl.symm.trans hl')
  have hsplit : ∀ {s : String} (d : Dialect), s ≠ "" →
      Path.stemAndExtension (s ++ "." ++ d.outputExtension) = (s, some d.outputExtension) :=
    fun d hs => Path.stemAndExtension_eq_some.2
      ⟨rfl, hs, (Path.isExtension_outputExtension d).dot_not_mem⟩
  have hparts := (hsplit d hstem).symm.trans ((congrArg _ hname).trans (hsplit d' hstem'))
  obtain ⟨rfl, hext⟩ := Prod.mk.inj hparts
  obtain rfl := Dialect.outputExtension_inj (Option.some.inj hext)
  rw [hfile] at hfile'
  obtain rfl := Entry.file.inj (Option.some.inj hfile')
  exact ⟨rfl, Option.some.inj (htext.symm.trans htext')⟩

end FileTree

namespace Document

theorem compiled_of_mem_imports {source : String} {d : Document} (h : parse source = .ok d)
    {i : Import} (hi : i ∈ d.imports) : i.compiled = none := by
  have hmem : Header.leaf (.importing i) ∈ Node.headersOf d.nodes := by
    obtain ⟨n, hn, hi⟩ := List.mem_flatMap.1 hi
    obtain ⟨m, hm, hmi⟩ := List.mem_filterMap.1 hi
    obtain rfl := Node.import?_eq_some.1 hmi
    refine Node.mem_headersOf hn ?_
    rcases List.mem_cons.1 hm with rfl | hm
    · exact List.mem_singleton_self _
    · cases n with
      | function name children span =>
          exact List.mem_cons_of_mem _ (Node.mem_headersOf hm (List.mem_singleton_self _))
      | page | importing | title | script | element => cases hm
  exact (wellFormed_headersOf h _ hmem).1

end Document

namespace Command

open FileTree

theorem exists_import_of_sidecar {base : Path} {is : List Import} {w : Path × String}
    (h : w ∈ is.filterMap (sidecar? base)) :
    ∃ i ∈ is, ∃ path d, i.path = some path ∧ i.dialect? = some d ∧
      w.1 = d.sidecar (base.join ⟨path⟩) := by
  obtain ⟨i, hi, hw⟩ := List.mem_filterMap.1 h
  simp only [sidecar?] at hw
  split at hw
  · next path compiled d hpath hcompiled hdialect =>
      obtain rfl := Option.some.inj hw
      exact ⟨i, hi, path, d, hpath, hdialect, rfl⟩
  · cases hw

theorem ofPath?_of_import {i : Import} {path : String} {d : Dialect} (hpath : i.path = some path)
    (hdialect : i.dialect? = some d) (base : Path) :
    Dialect.ofPath? (base.join ⟨path⟩) = some d := by
  rw [Import.dialect?, hpath] at hdialect
  exact Dialect.ofPath?_join hdialect base

theorem mem_imports_of_emitted {config : Config} {c : Compilation} {i : Import}
    (h : i ∈ emitted config c) : i ∈ c.document.imports := by
  rw [emitted] at h
  split at h
  · exact h
  · cases h

section Page

variable {t : FileTree} {named : Option Path} {file : Path} {config : Config} {c : Compilation}
  {l : Location}

theorem Builds.extension?_page (h : Builds t named file (file.withExtension "html") config c)
    (hl : t.target? (file.withExtension "html") = some l) : l.extension? = some "html" :=
  extension?_of_target h.extension ⟨by decide, by decide, by decide⟩ hl

theorem exists_import_of_target {base : Path} {w : Path × String}
    (hw : w ∈ (emitted config c).filterMap (sidecar? base)) (hl : t.target? w.1 = some l) :
    ∃ i ∈ c.document.imports, ∃ path d, i.path = some path ∧ i.dialect? = some d ∧
      t.locate (d.sidecar (base.join ⟨path⟩)) = .ok l ∧ l.extension? = some d.outputExtension := by
  obtain ⟨i, hi, path, d, hpath, hdialect, hsidecar⟩ := exists_import_of_sidecar hw
  rw [hsidecar] at hl
  exact ⟨i, mem_imports_of_emitted hi, path, d, hpath, hdialect, (target?_eq_some.1 hl).2.1,
    extension?_of_sidecar (ofPath?_of_import hpath hdialect base) hl⟩

theorem Builds.read_page (h : Builds t named file (file.withExtension "html") config c) :
    (t.writeAll ((file.withExtension "html", c.html) ::
      (emitted config c).filterMap (sidecar? (baseDirectory file)))).read
        (file.withExtension "html") = .ok c.html.toUTF8 := by
  obtain ⟨l, hl⟩ := Option.isSome_iff_exists.1 h.target
  obtain ⟨v, hv, hvl, hentry⟩ := t.entry?_writeAll_of_mem
    (w := (file.withExtension "html", c.html)) List.mem_cons_self hl
  refine read_eq_ok.2 ⟨l, ?_, ?_⟩
  · exact (sameDirectories_writeAll t _).locate.2 (target?_eq_some.1 hl).2.1
  · rcases List.mem_cons.1 hv with rfl | hv
    · exact hentry
    · obtain ⟨-, -, -, d, -, -, -, hext⟩ := exists_import_of_target hv hvl
      rw [h.extension?_page hl] at hext
      cases d <;> exact absurd (Option.some.inj hext) (by decide)

theorem changed_of_build {writes : List (Path × String)}
    (h : FileTree.entry? (t.writeAll writes) l ≠ t.entry? l) :
    ∃ w ∈ writes, t.target? w.1 = some l := by
  refine Classical.byContradiction fun hnone => h (t.entry?_writeAll_of_forall ?_)
  exact fun w hw hl => hnone ⟨w, hw, hl⟩

end Page

/-- A command that fails changes nothing. A build that succeeds, with no target of its own, writes
the page that the tree before it compiles to, and changes nothing but the page and the outputs of
its imports. -/
theorem run_changes (default : Format) (arguments : List String) (t : FileTree) :
    let outcome := ((run default arguments : StateM FileTree Outcome).run t).1
    let after := ((run default arguments : StateM FileTree Outcome).run t).2
    (outcome.exit ≠ 0 → after = t) ∧
    ∀ format named file, Invocation.parse arguments = .ok ⟨format, named, .build file none⟩ →
      outcome.exit = 0 →
      ∃ source config c,
        t.readText file = .ok source ∧
        settings t named (baseDirectory file) = .ok config ∧
        compile source (baseDirectory file) t.loader config = .ok c ∧
        after.read (file.withExtension "html") = .ok c.html.toUTF8 ∧
        ∀ l, after.entry? l ≠ t.entry? l →
          (t.locate (file.withExtension "html") = .ok l ∨
            ∃ i ∈ c.document.imports, ∃ path d, i.path = some path ∧ i.dialect? = some d ∧
              t.locate (d.sidecar ((baseDirectory file).join ⟨path⟩)) = .ok l) ∧
          l.extension? ∈ [some "html", some "js", some "css"] ∧
          l.extension? ∉ [some "heng", some "seng", some "ceng", some "json"] := by
  refine ⟨tree_of_failed default t arguments, fun format named file hparse => ?_⟩
  rw [run_of_parse default t hparse]
  intro hexit
  simp only [Invocation.run] at hexit ⊢
  rcases build_fails_or_builds t (format.getD default) named file none with
    ⟨o, ho, hrun⟩ | ⟨config, c, hbuilds⟩
  · rw [hrun, ho] at hexit
    cases hexit
  · obtain ⟨causes, -, hrun⟩ := hbuilds.run_build none (format.getD default)
    obtain ⟨source, hsource, hcompile⟩ := hbuilds.compiles
    rw [hrun]
    refine ⟨source, config, c, hsource, hbuilds.settings, hcompile, hbuilds.read_page, ?_⟩
    intro l hl
    obtain ⟨w, hw, htarget⟩ := changed_of_build hl
    rcases List.mem_cons.1 hw with rfl | hw
    · refine ⟨.inl (target?_eq_some.1 htarget).2.1, ?_⟩
      rw [hbuilds.extension?_page htarget]
      decide
    · obtain ⟨i, hi, path, d, hpath, hdialect, hlocate, hext⟩ := exists_import_of_target hw htarget
      refine ⟨.inr ⟨i, hi, path, d, hpath, hdialect, hlocate⟩, ?_⟩
      rw [hext]
      cases d <;> decide

theorem Builds.exit_eq_zero {t : FileTree} {named : Option Path} {file : Path} {config : Config}
    {c : Compilation} (h : Builds t named file (file.withExtension "html") config c)
    {default : Format} {arguments : List String} {format : Option Format}
    (hparse : Invocation.parse arguments = .ok ⟨format, named, .build file none⟩) :
    ((run default arguments : StateM FileTree Outcome).run t).1.exit = 0 := by
  obtain ⟨causes, -, hrun⟩ := h.run_build none (format.getD default)
  rw [run_of_parse default t hparse]
  refine (congrArg (fun r : Outcome × FileTree => r.1.exit) hrun).trans ?_
  cases format.getD default <;> rfl

/-- A page that imports a script twice, in two spellings, and a style sheet whose output cannot be
written, since a directory has its name. -/
def demoSite : FileTree :=
  ⟨⟨["work"]⟩,
    [(⟨["page.heng", "work"]⟩,
        .file "import from [a.seng] import from [./a.seng] import from [b.ceng]".toUTF8),
     (⟨["a.seng", "work"]⟩, .file "log(1)".toUTF8),
     (⟨["b.ceng", "work"]⟩, .file "bg: red".toUTF8),
     (⟨["b.css", "work"]⟩, .directory)]⟩

def demoDocument : Document :=
  ⟨[.importing ⟨none, some "a.seng", none, ⟨0, 20⟩⟩,
    .importing ⟨none, some "./a.seng", none, ⟨21, 43⟩⟩,
    .importing ⟨none, some "b.ceng", none, ⟨44, 64⟩⟩]⟩

theorem readText_demoSite : demoSite.readText ⟨"page.heng"⟩ =
    .ok "import from [a.seng] import from [./a.seng] import from [b.ceng]" := rfl

theorem parse_demoSite :
    Document.parse "import from [a.seng] import from [./a.seng] import from [b.ceng]" =
      .ok demoDocument := by
  have hscan : (Scan.ofTokens (Token.tokenize
      "import from [a.seng] import from [./a.seng] import from [b.ceng]")).toOption =
      some [.leaf (.importing ⟨none, some "a.seng", none, ⟨0, 20⟩⟩),
        .leaf (.importing ⟨none, some "./a.seng", none, ⟨21, 43⟩⟩),
        .leaf (.importing ⟨none, some "b.ceng", none, ⟨44, 64⟩⟩)] := by decide +kernel
  exact Document.parse_eq_ok_iff.2 ⟨_, Document.eq_ok_of_toOption hscan, rfl⟩

theorem builds_demoSite :
    Builds demoSite none ⟨"page.heng"⟩ ⟨"page.html"⟩ .default
      (demoDocument.compile ⟨"."⟩ demoSite.loader .default) := by
  refine ⟨by decide, rfl, ⟨_, readText_demoSite, ?_⟩, rfl⟩
  exact compile_eq_ok_iff.2 ⟨demoDocument, parse_demoSite, rfl⟩

theorem run_changes_demoSite :
    let outcome := ((run .json ["build", "page.heng"] : StateM FileTree Outcome).run demoSite).1
    let after := ((run .json ["build", "page.heng"] : StateM FileTree Outcome).run demoSite).2
    Invocation.parse ["build", "page.heng"] = .ok ⟨none, none, .build ⟨"page.heng"⟩ none⟩ ∧
    outcome.exit = 0 ∧
    demoSite.read ⟨"page.html"⟩ = .error .missing ∧
    after.read ⟨"page.html"⟩ =
      .ok (demoDocument.compile ⟨"."⟩ demoSite.loader .default).html.toUTF8 ∧
    ∀ l, after.entry? l ≠ demoSite.entry? l →
      l.extension? ∈ [some "html", some "js", some "css"] := by
  intro outcome after
  have hexit : outcome.exit = 0 := builds_demoSite.exit_eq_zero rfl
  obtain ⟨source, config, c, hsource, hconfig, hcompile, hread, hchanged⟩ :=
    (run_changes .json ["build", "page.heng"] demoSite).2 none none ⟨"page.heng"⟩ rfl hexit
  obtain ⟨-, hconfig', ⟨source', hsource', hcompile'⟩, -⟩ := builds_demoSite
  obtain rfl := Except.ok.inj (hsource.symm.trans hsource')
  obtain rfl := Except.ok.inj (hconfig.symm.trans hconfig')
  obtain rfl := Except.ok.inj (hcompile.symm.trans hcompile')
  exact ⟨rfl, hexit, rfl, hread, fun l hl => (hchanged l hl).2.1⟩

structure Product where
  source : Path
  dialect : Dialect
  code : String
  span : Span

namespace Product

def target (p : Product) : Path := p.dialect.sidecar p.source

def refusal (p : Product) (cause : FileError) : Diagnostic :=
  Command.refusal (p.target, p.span) cause

end Product

/-- The output of an import whose path has a dialect and whose file can be read. -/
def product? (base : Path) (t : FileTree) (i : Import) : Option Product :=
  match i.path, i.dialect? with
  | some path, some d =>
      match t.readText (base.join ⟨path⟩) with
      | .ok source => some ⟨base.join ⟨path⟩, d, d.compile source, i.span⟩
      | .error _ => none
  | _, _ => none

def products (base : Path) (t : FileTree) (d : Document) : List Product :=
  d.imports.filterMap (product? base t)

section Products

variable {base : Path} {t : FileTree}

theorem product?_eq_some {i : Import} {p : Product} (h : product? base t i = some p) :
    Dialect.ofPath? p.source = some p.dialect ∧ p.span = i.span ∧
      ∃ source, t.readText p.source = .ok source ∧ p.code = p.dialect.compile source := by
  simp only [product?] at h
  split at h
  · next path d hpath hdialect =>
      split at h
      · next source hsource =>
          obtain rfl := Option.some.inj h
          exact ⟨ofPath?_of_import hpath hdialect base, rfl, source, hsource, rfl⟩
      · cases h
  · cases h

theorem sidecar?_resolved {i : Import} (hi : i.compiled = none) :
    sidecar? base (i.resolved base t.loader) =
      (product? base t i).map fun p => (p.target, p.code) := by
  obtain ⟨type, path, compiled, span⟩ := i
  obtain rfl : compiled = none := hi
  cases path with
  | none => rfl
  | some path =>
      simp only [Import.resolved, product?, Import.dialect?, Option.bind_some, loader]
      cases hdialect : Dialect.ofPath? ⟨path⟩ with
      | none => rfl
      | some d =>
          cases hread : t.readText (base.join ⟨path⟩) with
          | error e => simp [sidecar?, hread]
          | ok source => simp [sidecar?, Import.dialect?, hdialect, hread, Product.target]

variable {d : Document} (hd : ∀ i ∈ d.imports, i.compiled = none)
include hd

theorem filterMap_sidecar?_resolved :
    ((d.resolve base t.loader).imports).filterMap (sidecar? base) =
      (products base t d).map fun p => (p.target, p.code) := by
  rw [Document.imports_resolve, List.filterMap_map, products, List.map_filterMap]
  exact List.filterMap_congr fun i hi => sidecar?_resolved (hd i hi)

theorem writable_products :
    writable t (((d.resolve base t.loader).imports).filterMap (sidecar? base)) =
      ((products base t d).filter fun p => (t.target? p.target).isSome).map Product.target := by
  rw [filterMap_sidecar?_resolved hd, writable, List.map_map, List.filter_map]
  rfl

theorem refused_products :
    refused t base (d.resolve base t.loader).imports =
      ((products base t d).filter fun p => !(t.target? p.target).isSome).map
        fun p => (p.target, p.span) := by
  rw [Document.imports_resolve, refused, List.filterMap_map, products, ← List.filterMap_eq_filter,
    List.filterMap_filterMap, List.map_filterMap]
  refine List.filterMap_congr fun i hi => ?_
  simp only [Function.comp_apply, sidecar?_resolved (hd i hi), Import.span_resolved]
  cases hp : product? base t i with
  | none => rfl
  | some p =>
      have hspan : p.span = i.span := (product?_eq_some hp).2.1
      cases htarget : t.target? p.target <;> simp [Option.guard, hspan, htarget]

end Products

theorem parse_stdout (d : Dialect) {file : Path} (h : file.text ≠ "") :
    Invocation.parse [d.sourceExtension, "--stdout", "--", file.text] =
      .ok ⟨none, none, .compile d file none true⟩ := by
  have hcommand : Reading.step {} d.sourceExtension = .ok { command := some (.compile d) } := by
    cases d <;> rfl
  have hstdout : Reading.step { command := some (.compile d) } "--stdout" =
      .ok { command := some (.compile d), inner := { stdout := true } } := by
    cases d <;> rfl
  have hescape : Reading.step
      { command := some (.compile d), inner := { stdout := true } } "--" =
      .ok { command := some (.compile d), inner := { stdout := true }, escaped := true } := by
    cases d <;> rfl
  have hempty : file.text.isEmpty = false := by simpa using h
  have hfile : Reading.step
      { command := some (.compile d), inner := { stdout := true }, escaped := true } file.text =
      .ok { command := some (.compile d), inner := { stdout := true }, operand := some file.text,
            escaped := true } := by
    simp [Reading.step, Reading.plain, hempty]
  simp only [Invocation.parse, List.foldlM, hcommand, hstdout, hescape, hfile, bind, Except.bind]
  rfl

theorem run_stdout (default : Format) {t : FileTree} {d : Dialect} {file : Path} {source : String}
    (h : t.readText file = .ok source) :
    (run default [d.sourceExtension, "--stdout", "--", file.text] : StateM FileTree _).run t =
      (.print (d.compile source), t) := by
  have hne : file.text ≠ "" := by
    rintro hempty
    obtain ⟨bytes, hread, -⟩ := readText_eq_ok.1 h
    obtain ⟨l, hlocate, -⟩ := read_eq_ok.1 hread
    have hcheck := (locate_eq_ok.1 hlocate).1
    simp [checkPath, hempty] at hcheck
  rw [run_of_parse default t (parse_stdout d hne)]
  exact run_compileFile_stdout t _ d file none h

theorem code_unique {base : Path} {t : FileTree} {d : Document} {p q : Product} {l : Location}
    (hp : p ∈ products base t d) (hq : q ∈ products base t d) (hl : t.target? p.target = some l)
    (hl' : t.target? q.target = some l) : p.code = q.code := by
  obtain ⟨i, -, hi⟩ := List.mem_filterMap.1 hp
  obtain ⟨j, -, hj⟩ := List.mem_filterMap.1 hq
  obtain ⟨hdialect, -, source, hsource, hcode⟩ := product?_eq_some hi
  obtain ⟨hdialect', -, source', hsource', hcode'⟩ := product?_eq_some hj
  obtain ⟨heq, rfl⟩ := source_unique hdialect hdialect' hsource hsource' hl hl'
  rw [hcode, hcode', heq]

theorem read_product {base page : Path} {html : String} {t : FileTree} {d : Document} {p : Product}
    (hpage : ∀ l, t.target? page = some l → l.extension? = some "html")
    (hp : p ∈ products base t d) (hwritable : (t.target? p.target).isSome = true) :
    (t.writeAll ((page, html) :: (products base t d).map fun p => (p.target, p.code))).read
      p.target = .ok p.code.toUTF8 := by
  obtain ⟨l, hl⟩ := Option.isSome_iff_exists.1 hwritable
  have hmem : (p.target, p.code) ∈ (page, html) ::
      (products base t d).map fun p => (p.target, p.code) :=
    List.mem_cons_of_mem _ (List.mem_map.2 ⟨p, hp, rfl⟩)
  obtain ⟨v, hv, hvl, hentry⟩ := t.entry?_writeAll_of_mem hmem hl
  refine read_eq_ok.2 ⟨l, (sameDirectories_writeAll t _).locate.2 (target?_eq_some.1 hl).2.1, ?_⟩
  rcases List.mem_cons.1 hv with rfl | hv
  · obtain ⟨i, -, hi⟩ := List.mem_filterMap.1 hp
    have hext := extension?_of_sidecar (product?_eq_some hi).1 hl
    rw [hpage l hvl] at hext
    cases hdialect : p.dialect <;> rw [hdialect] at hext <;>
      exact absurd (Option.some.inj hext) (by decide)
  · obtain ⟨q, hq, rfl⟩ := List.mem_map.1 hv
    rw [hentry, code_unique hp hq hl hvl]

/-- The outputs that a build writes agree with those that the commands for one file print. The
imports that could be read are gone through in their order: an output that can be written is listed
in the report, any other one has a warning there after those of the imports, and in the end every
listed file holds what the command for its source prints. -/
theorem sidecars_of_build (default : Format) (arguments : List String) (t : FileTree)
    {format : Option Format} {named : Option Path} {file : Path}
    (hparse : Invocation.parse arguments = .ok ⟨format, named, .build file none⟩)
    (hexit : ((run default arguments : StateM FileTree Outcome).run t).1.exit = 0)
    {config : Config} (hconfig : settings t named (baseDirectory file) = .ok config)
    (hinline : config.inlineImports = true) (hemit : config.emitSidecars = true) :
    let base := baseDirectory file
    let outcome := ((run default arguments : StateM FileTree Outcome).run t).1
    let after := ((run default arguments : StateM FileTree Outcome).run t).2
    ∃ source d, t.readText file = .ok source ∧ Document.parse source = .ok d ∧
      let written := (products base t d).filter fun p => (t.target? p.target).isSome
      let unwritten := (products base t d).filter fun p => !(t.target? p.target).isSome
      ∃ causes : List FileError, causes.length = unwritten.length ∧
        let page := file.withExtension "html"
        let sidecars := written.map Product.target
        let ds := d.resolutionWarnings base t.loader ++
          List.zipWith Product.refusal unwritten causes
        outcome = buildReport (format.getD default) file page sidecars ds ∧
        Reports file page sidecars ds outcome (format.getD default) ∧
        ∀ p ∈ written, after.read p.target = .ok p.code.toUTF8 ∧
          (run default [p.dialect.sourceExtension, "--stdout", "--", p.source.text] :
            StateM FileTree Outcome).run t = (.print p.code, t) := by
  intro base outcome after
  have hrun : (run default arguments : StateM FileTree Outcome).run t =
      (build (format.getD default) named file none : StateM FileTree _).run t :=
    run_of_parse default t hparse
  rw [hrun] at hexit
  rcases build_fails_or_builds t (format.getD default) named file none with
    ⟨o, ho, hfail⟩ | ⟨config', c, hbuilds⟩
  · rw [hfail, ho] at hexit
    cases hexit
  obtain rfl := Except.ok.inj (hconfig.symm.trans hbuilds.settings)
  obtain ⟨causes, hlength, hbuild⟩ := hbuilds.run_build none (format.getD default)
  obtain ⟨source, hsource, hcompile⟩ := hbuilds.compiles
  obtain ⟨d, hd, rfl⟩ := compile_eq_ok_iff.1 hcompile
  have hnone : ∀ i ∈ d.imports, i.compiled = none := fun i hi =>
    Document.compiled_of_mem_imports hd hi
  have hemitted : emitted config (d.compile base t.loader config) =
      (d.resolve base t.loader).imports := by
    simp [emitted, hemit, Document.compile, hinline]
  have hwarnings : (d.compile base t.loader config).diagnostics =
      d.resolutionWarnings base t.loader := by
    simp [Document.compile, hinline]
  rw [hemitted, refused_products hnone] at hlength
  rw [hemitted, writable_products hnone, refused_products hnone, filterMap_sidecar?_resolved hnone,
    hwarnings, List.zipWith_map_left, ← hrun] at hbuild
  have houtcome := congrArg Prod.fst hbuild
  refine ⟨source, d, hsource, hd, causes, by simpa using hlength, houtcome, ?_, ?_⟩
  · rw [show outcome = _ from houtcome]
    exact reports_buildReport _ _ _ _ _
  intro p hp
  obtain ⟨hp, hwritable⟩ := List.mem_filter.1 hp
  constructor
  · rw [show after = _ from congrArg Prod.snd hbuild]
    exact read_product (fun l hl => hbuilds.extension?_page hl) hp hwritable
  · obtain ⟨i, -, hi⟩ := List.mem_filterMap.1 hp
    obtain ⟨-, -, source, hsource, hcode⟩ := product?_eq_some hi
    rw [hcode]
    exact run_stdout default hsource

theorem sidecars_of_build_demoSite :
    let outcome := ((run .json ["build", "page.heng"] : StateM FileTree Outcome).run demoSite).1
    let after := ((run .json ["build", "page.heng"] : StateM FileTree Outcome).run demoSite).2
    Invocation.parse ["build", "page.heng"] = .ok ⟨none, none, .build ⟨"page.heng"⟩ none⟩ ∧
    outcome.exit = 0 ∧
    settings demoSite none ⟨"."⟩ = .ok .default ∧
    Config.default.inlineImports = true ∧ Config.default.emitSidecars = true ∧
    (∃ cause : FileError, outcome = buildReport .json ⟨"page.heng"⟩ ⟨"page.html"⟩
      [⟨"./a.js"⟩, ⟨"././a.js"⟩] [refusal (⟨"./b.css"⟩, ⟨44, 64⟩) cause]) ∧
    (∃ report d, Json.IsText report outcome.stdout ∧
      report.member? "sidecars" = some (.array [.string "./a.js", .string "././a.js"]) ∧
      report.member? "diagnostics" = some (.array [d]) ∧
      d.member? "id" = some (.string "ENG3001")) ∧
    after.read ⟨"./a.js"⟩ = .ok "console.log(1);\n".toUTF8 ∧
    (run .json ["seng", "--stdout", "--", "./a.seng"] : StateM FileTree Outcome).run demoSite =
      (.print "console.log(1);\n", demoSite) := by
  intro outcome after
  have hexit : outcome.exit = 0 := builds_demoSite.exit_eq_zero rfl
  obtain ⟨source, d, hsource, hd, causes, hlength, houtcome, hreports, hwritten⟩ :=
    sidecars_of_build .json ["build", "page.heng"] demoSite rfl hexit
      (show settings demoSite none ⟨"."⟩ = .ok .default from rfl) rfl rfl
  obtain rfl := Except.ok.inj (readText_demoSite.symm.trans hsource)
  obtain rfl := Except.ok.inj (parse_demoSite.symm.trans hd)
  obtain ⟨cause, rfl⟩ := List.length_eq_one_iff.1 hlength
  obtain ⟨hread, hstdout⟩ := hwritten ⟨⟨"./a.seng"⟩, .script, "console.log(1);\n", ⟨0, 20⟩⟩
    List.mem_cons_self
  obtain ⟨report, items, htext, -, -, hsidecars, hdiagnostics, hshown⟩ := hreports
  obtain ⟨item, rest, hitem, hrest, rfl⟩ := List.forall₂_cons_left_iff.1 hshown
  obtain rfl := List.forall₂_nil_left_iff.1 hrest
  exact ⟨rfl, hexit, rfl, rfl, rfl, ⟨cause, houtcome⟩,
    ⟨report, item, htext, hsidecars, hdiagnostics, hitem.id⟩, hread, hstdout⟩

end Command

end EnglishPages
