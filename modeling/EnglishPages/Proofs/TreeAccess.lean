import EnglishPages.Files
import EnglishPages.Proofs.PathNames

/-!
Reading and writing in a file tree. A path is followed through directories that are there, so all
that stands above the place it leads to is a directory. A write goes to one place, where no directory
stands, and changes what is there and nothing else. So it changes no directory, and every path leads
where it led before: where a list of writes goes is known before the first of them.
-/

namespace EnglishPages

namespace Location

def step (l : Location) (segment : String) : Location :=
  if Path.isVoid segment then l else if segment = ".." then l.parent else l.child segment

theorem step_of_isVoid {segment : String} (h : Path.isVoid segment = true) (l : Location) :
    l.step segment = l := by
  rw [step, if_pos h]

theorem step_name {name : String} (hvoid : Path.isVoid name = false) (hparent : name ≠ "..")
    (l : Location) : l.step name = l.child name := by
  simp [step, hvoid, hparent]

theorem child_inj {l m : Location} {a b : String} : l.child a = m.child b ↔ l = m ∧ a = b := by
  cases l
  cases m
  simp [child, and_comm]

def extension? (l : Location) : Option String :=
  l.names.head?.bind fun name => (Path.stemAndExtension name).2

end Location

namespace FileTree

variable {t t' : FileTree} {l m : Location} {p : Path}

theorem follow_cons_eq_ok {segment : String} {rest : List String} :
    t.follow l (segment :: rest) = .ok m ↔
      t.entry? l = some .directory ∧
      (Path.isVoid segment = true ∨ segment = ".." ∨ segment.utf8ByteSize ≤ maxNameLength) ∧
      t.follow (l.step segment) rest = .ok m := by
  simp only [follow, Location.step]
  cases t.entry? l with
  | none => simp
  | some e =>
      cases e with
      | file bytes => simp
      | directory =>
          by_cases hvoid : Path.isVoid segment = true
          · simp [hvoid]
          · by_cases hparent : segment = ".."
            · subst hparent
              simp [show Path.isVoid ".." = false from rfl]
            · by_cases hlong : maxNameLength < segment.utf8ByteSize
              · simp [hvoid, hparent, hlong, Nat.not_le.2 hlong]
              · simp [hvoid, hparent, hlong, Nat.le_of_not_lt hlong]

theorem follow_append_eq_ok {a b : List String} :
    t.follow l (a ++ b) = .ok m ↔ ∃ k, t.follow l a = .ok k ∧ t.follow k b = .ok m := by
  induction a generalizing l with
  | nil => simp [follow]
  | cons segment a ih =>
      simp only [List.cons_append, follow_cons_eq_ok, ih]
      constructor
      · rintro ⟨hdirectory, hsegment, k, hk, hm⟩
        exact ⟨k, ⟨hdirectory, hsegment, hk⟩, hm⟩
      · rintro ⟨k, ⟨hdirectory, hsegment, hk⟩, hm⟩
        exact ⟨hdirectory, hsegment, k, hk, hm⟩

theorem follow_void_eq_ok {after : List String} (hafter : ∀ s ∈ after, Path.isVoid s = true)
    (h : t.follow l after = .ok m) :
    m = l ∧ (after = [] ∨ t.entry? l = some .directory) := by
  induction after with
  | nil => exact ⟨(Except.ok.inj h).symm, .inl rfl⟩
  | cons s after ih =>
      obtain ⟨hdirectory, -, h⟩ := follow_cons_eq_ok.1 h
      rw [Location.step_of_isVoid (hafter s List.mem_cons_self)] at h
      obtain ⟨rfl, -⟩ := ih (fun r hr => hafter r (List.mem_cons_of_mem s hr)) h
      exact ⟨rfl, .inr hdirectory⟩

/-- All that stands above a place is a directory. -/
def Grounded (t : FileTree) (l : Location) : Prop :=
  ∀ m : Location, m.names <:+ l.names.tail → t.entry? m = some .directory

theorem Grounded.step {segment : String} (h : t.Grounded l)
    (hl : t.entry? l = some .directory) : t.Grounded (l.step segment) := by
  rw [Location.step]
  split
  · exact h
  · split
    · exact fun m hm => h m (hm.trans (List.tail_suffix _))
    · intro m hm
      obtain ⟨above⟩ := m
      obtain ⟨names⟩ := l
      change above <:+ names at hm
      cases names with
      | nil =>
          obtain rfl := List.suffix_nil.1 hm
          exact hl
      | cons name names =>
          rcases List.suffix_cons_iff.1 hm with rfl | hm
          · exact hl
          · exact h ⟨above⟩ hm

theorem Grounded.follow {segments : List String} (h : t.Grounded l)
    (hm : t.follow l segments = .ok m) : t.Grounded m := by
  induction segments generalizing l with
  | nil => exact Except.ok.inj hm ▸ h
  | cons segment segments ih =>
      obtain ⟨hdirectory, -, hm⟩ := follow_cons_eq_ok.1 hm
      exact ih (h.step hdirectory) hm

theorem grounded_start (t : FileTree) (p : Path) : t.Grounded (t.start p) := by
  intro m hm
  have hworking : m.names <:+ t.working.names := by
    rw [start] at hm
    split at hm
    · exact List.suffix_nil.1 hm ▸ List.nil_suffix
    · exact hm.trans (List.tail_suffix _)
  rw [FileTree.entry?, Location.leadsTo, List.isSuffixOf_iff_suffix.2 hworking, if_pos rfl]

theorem entry?_parent (h : t.Grounded l) : t.entry? l.parent = some .directory :=
  h l.parent List.suffix_rfl

theorem locate_eq_ok :
    t.locate p = .ok l ↔ checkPath p = .ok () ∧ t.follow (t.start p) p.segments = .ok l := by
  rw [locate]
  cases checkPath p with
  | error e => simp [bind, Except.bind]
  | ok u => simp [bind, Except.bind]

theorem read_eq_ok {bytes : ByteArray} :
    t.read p = .ok bytes ↔ ∃ l, t.locate p = .ok l ∧ t.entry? l = some (.file bytes) := by
  rw [read]
  cases t.locate p with
  | error e => simp [bind, Except.bind]
  | ok l =>
      simp only [bind, Except.bind, Except.ok.injEq, exists_eq_left']
      cases t.entry? l with
      | none => simp
      | some e => cases e <;> simp

theorem readText_eq_ok {text : String} :
    t.readText p = .ok text ↔
      ∃ bytes, t.read p = .ok bytes ∧ String.fromUTF8? bytes = some text := by
  rw [readText]
  cases t.read p with
  | error e => simp [bind, Except.bind]
  | ok bytes =>
      simp only [bind, Except.bind, Except.ok.injEq, exists_eq_left']
      cases String.fromUTF8? bytes <;> simp

section Names

variable {n : Path.Named} (hn : n.Splits p)
include hn

theorem locate_file {bytes : ByteArray} (hl : t.locate p = .ok l)
    (hfile : t.entry? l = some (.file bytes)) :
    n.after = [] ∧ ∃ directory, t.follow (t.start p) n.before = .ok directory ∧
      l = directory.child n.name := by
  obtain ⟨-, hfollow⟩ := locate_eq_ok.1 hl
  rw [hn.segments, follow_append_eq_ok] at hfollow
  obtain ⟨directory, hbefore, hname⟩ := hfollow
  obtain ⟨-, -, hafter⟩ := follow_cons_eq_ok.1 hname
  rw [Location.step_name hn.isVoid_name hn.name_ne_parent] at hafter
  obtain ⟨rfl, hend⟩ := follow_void_eq_ok hn.isVoid_after hafter
  rcases hend with hend | hdirectory
  · exact ⟨hend, directory, hbefore, rfl⟩
  · rw [hfile] at hdirectory
    cases hdirectory

theorem start_sibling {name : String} (hslash : '/' ∉ name.toList) :
    t.start (n.sibling name) = t.start p := by
  rw [start, start, hn.isAbsolute_sibling hslash]

theorem locate_sibling {name : String} (hslash : '/' ∉ name.toList)
    (hl : t.locate (n.sibling name) = .ok l) :
    ∃ directory, t.follow (t.start p) n.before = .ok directory ∧
      t.entry? directory = some .directory ∧ l = directory.step name := by
  obtain ⟨-, hfollow⟩ := locate_eq_ok.1 hl
  rw [hn.segments_sibling hslash, start_sibling hn hslash, follow_append_eq_ok] at hfollow
  obtain ⟨directory, hbefore, hname⟩ := hfollow
  obtain ⟨hdirectory, -, hend⟩ := follow_cons_eq_ok.1 hname
  exact ⟨directory, hbefore, hdirectory, (Except.ok.inj hend).symm⟩

end Names

/-- The place that a write to a path goes to. -/
def target? (t : FileTree) (p : Path) : Option Location :=
  if endsInSlash p then none
  else
    match t.locate p with
    | .error _ => none
    | .ok l =>
        match t.entry? l with
        | some .directory => none
        | _ => some l

theorem target?_eq_some :
    t.target? p = some l ↔
      endsInSlash p = false ∧ t.locate p = .ok l ∧ t.entry? l ≠ some .directory := by
  rw [target?]
  cases endsInSlash p with
  | true => simp
  | false =>
      cases t.locate p with
      | error e => simp
      | ok k =>
          simp only [Bool.false_eq_true, if_false, true_and, Except.ok.injEq]
          split
          · next hk => exact ⟨nofun, fun ⟨heq, hl⟩ => absurd (heq ▸ hk) hl⟩
          · next hk =>
              rw [Option.some.injEq]
              exact ⟨fun heq => ⟨heq, heq ▸ hk⟩, fun h => h.1⟩

theorem write_of_target {bytes : ByteArray} (h : t.target? p = some l) :
    t.write p bytes = .ok (t.put l (.file bytes)) := by
  obtain ⟨hslash, hlocate, hentry⟩ := target?_eq_some.1 h
  simp only [write, hslash, hlocate, bind, Except.bind, Bool.false_eq_true, if_false]

theorem write_of_none {bytes : ByteArray} (h : t.target? p = none) :
    ∃ e, t.write p bytes = .error e := by
  rw [target?] at h
  rw [write]
  cases hslash : endsInSlash p with
  | true => exact ⟨_, rfl⟩
  | false =>
      cases hlocate : t.locate p with
      | error e => exact ⟨e, rfl⟩
      | ok k =>
          rw [hslash, hlocate] at h
          simp only [Bool.false_eq_true, if_false] at h
          split at h
          · next hentry => exact ⟨.isADirectory, by simp [bind, Except.bind, hentry]⟩
          · cases h

/-- The name that a renamed file is written under, in the directory of the file. The path `..` that
is left of a name `..x` is the path of a directory. -/
theorem target?_withExtension {n : Path.Named} (hn : n.Splits p) {extension : String}
    (hext : Path.IsExtension extension) (h : t.target? (p.withExtension extension) = some l) :
    p.withExtension extension = n.sibling (n.renamed extension) ∧
    ∃ directory, t.follow (t.start p) n.before = .ok directory ∧
      l = directory.child (n.renamed extension) := by
  obtain ⟨-, hlocate, hentry⟩ := target?_eq_some.1 h
  rcases hn.withExtension extension with hpath | hpath
  · rw [hpath] at hlocate
    obtain ⟨directory, hbefore, hdirectory, rfl⟩ := locate_sibling hn (by decide) hlocate
    exact absurd (entry?_parent ((t.grounded_start p).follow hbefore)) hentry
  · rw [hpath] at hlocate
    obtain ⟨directory, hbefore, -, rfl⟩ :=
      locate_sibling hn (hn.slash_not_mem_renamed hext) hlocate
    obtain ⟨hvoid, hparent⟩ := hn.isName_renamed hext
    exact ⟨hpath, directory, hbefore, Location.step_name hvoid hparent directory⟩

theorem lookup_filter_ne (entries : List (Location × Entry)) (h : m ≠ l) :
    (entries.filter fun old => old.1 != l).lookup m = entries.lookup m := by
  induction entries with
  | nil => rfl
  | cons entry entries ih =>
      obtain ⟨k, e⟩ := entry
      by_cases hk : k = l
      · simp [List.lookup_cons, hk, ih, beq_eq_false_iff_ne.2 h]
      · simp [List.lookup_cons, hk, ih]

theorem entry?_put (hl : t.entry? l ≠ some .directory) (e : Entry) (m : Location) :
    FileTree.entry? (t.put l e) m = if m = l then some e else t.entry? m := by
  have hworking : l.leadsTo t.working = false := by
    cases hleads : l.leadsTo t.working with
    | false => rfl
    | true => exact absurd (by rw [FileTree.entry?, hleads, if_pos rfl]) hl
  by_cases hm : m = l
  · subst hm
    simp [FileTree.entry?, put, hworking]
  · simp [FileTree.entry?, put, hm, List.lookup_cons, beq_eq_false_iff_ne.2 hm, lookup_filter_ne _ hm]

structure SameDirectories (t t' : FileTree) : Prop where
  working : t'.working = t.working
  directory : ∀ l, t'.entry? l = some .directory ↔ t.entry? l = some .directory

namespace SameDirectories

variable (h : SameDirectories t t')
include h

theorem follow {segments : List String} :
    t'.follow l segments = .ok m ↔ t.follow l segments = .ok m := by
  induction segments generalizing l with
  | nil => rfl
  | cons segment segments ih => simp only [follow_cons_eq_ok, h.directory, ih]

theorem locate : t'.locate p = .ok l ↔ t.locate p = .ok l := by
  have hstart : t'.start p = t.start p := by rw [start, start, h.working]
  simp only [locate_eq_ok, hstart, h.follow]

theorem target? : t'.target? p = t.target? p :=
  Option.ext fun l => by simp only [target?_eq_some, h.locate, ne_eq, h.directory]

end SameDirectories

theorem sameDirectories_put (hl : t.entry? l ≠ some .directory) (bytes : ByteArray) :
    SameDirectories t (t.put l (.file bytes)) where
  working := rfl
  directory m := by
    rw [entry?_put hl]
    split
    · next hm => simp [hm, hl]
    · rfl

def writeAll (t : FileTree) : List (Path × String) → FileTree
  | [] => t
  | (p, text) :: writes =>
      match t.target? p with
      | some l => (t.put l (.file text.toUTF8)).writeAll writes
      | none => t.writeAll writes

theorem SameDirectories.trans {t₁ t₂ t₃ : FileTree} (h : SameDirectories t₁ t₂)
    (h' : SameDirectories t₂ t₃) : SameDirectories t₁ t₃ :=
  ⟨h'.working.trans h.working, fun l => (h'.directory l).trans (h.directory l)⟩

theorem sameDirectories_writeAll (t : FileTree) (writes : List (Path × String)) :
    SameDirectories t (t.writeAll writes) := by
  induction writes generalizing t with
  | nil => exact ⟨rfl, fun _ => Iff.rfl⟩
  | cons write writes ih =>
      obtain ⟨p, text⟩ := write
      rw [writeAll]
      split
      · next l hl =>
          exact (sameDirectories_put (target?_eq_some.1 hl).2.2 text.toUTF8).trans (ih _)
      · exact ih t

theorem entry?_writeAll_of_forall (t : FileTree) {writes : List (Path × String)}
    (h : ∀ w ∈ writes, t.target? w.1 ≠ some l) :
    FileTree.entry? (t.writeAll writes) l = t.entry? l := by
  induction writes generalizing t with
  | nil => rfl
  | cons write writes ih =>
      obtain ⟨p, text⟩ := write
      have hrest : ∀ w ∈ writes, t.target? w.1 ≠ some l := fun w hw =>
        h w (List.mem_cons_of_mem _ hw)
      rw [writeAll]
      split
      · next k hk =>
          have hfree := (target?_eq_some.1 hk).2.2
          have hkl : l ≠ k := fun heq => h (p, text) List.mem_cons_self (heq ▸ hk)
          have hsame := sameDirectories_put hfree text.toUTF8
          rw [ih _ fun w hw => hsame.target? ▸ hrest w hw, entry?_put hfree, if_neg hkl]
      · exact ih t hrest

theorem entry?_writeAll_of_mem (t : FileTree) {writes : List (Path × String)}
    {w : Path × String} (hw : w ∈ writes) (hl : t.target? w.1 = some l) :
    ∃ v ∈ writes, t.target? v.1 = some l ∧
      FileTree.entry? (t.writeAll writes) l = some (.file v.2.toUTF8) := by
  induction writes generalizing t w with
  | nil => cases hw
  | cons write writes ih =>
      obtain ⟨p, text⟩ := write
      -- A later write to the place decides, and if there is none the first one does.
      by_cases hlater : ∃ u ∈ writes, t.target? u.1 = some l
      · obtain ⟨u, hu, hul⟩ := hlater
        rw [writeAll]
        split
        · next k hk =>
            have hsame := sameDirectories_put (target?_eq_some.1 hk).2.2 text.toUTF8
            obtain ⟨v, hv, hvl, hentry⟩ := ih (t.put k (.file text.toUTF8)) hu (hsame.target? ▸ hul)
            exact ⟨v, List.mem_cons_of_mem _ hv, hsame.target? ▸ hvl, hentry⟩
        · obtain ⟨v, hv, hvl, hentry⟩ := ih t hu hul
          exact ⟨v, List.mem_cons_of_mem _ hv, hvl, hentry⟩
      · have hrest : ∀ u ∈ writes, t.target? u.1 ≠ some l := fun u hu hul => hlater ⟨u, hu, hul⟩
        rcases List.mem_cons.1 hw with rfl | hw
        · have hfree := (target?_eq_some.1 hl).2.2
          have hsame := sameDirectories_put hfree text.toUTF8
          refine ⟨(p, text), List.mem_cons_self, hl, ?_⟩
          rw [writeAll, hl, entry?_writeAll_of_forall _ fun u hu => hsame.target? ▸ hrest u hu,
            entry?_put hfree, if_pos rfl]
        · exact absurd hl (hrest w hw)

end FileTree

end EnglishPages
