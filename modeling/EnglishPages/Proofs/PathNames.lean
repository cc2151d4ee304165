import EnglishPages.Dialect
import EnglishPages.Proofs.Scanning

/-!
Paths through their segments. A path is the join of its segments, so what is said of a path is said
of a list: where its final name stands, what continuing it by another path adds in front, and which
path names another file of the same directory.

Replacing an extension keeps the directory. It gives the name with the new extension, except for the
name `..x`, of which only the way up is left.
-/

namespace EnglishPages

namespace Path

theorem slash_not_mem_segment {p : Path} {s : String} (h : s ∈ p.segments) : '/' ∉ s.toList := by
  obtain ⟨cs, hcs, rfl⟩ := List.mem_map.1 h
  rw [String.toList_ofList]
  exact Text.not_mem_of_mem_pieces hcs

theorem toList_ofSegments (ss : List String) :
    (ofSegments ss).text.toList = Text.joined '/' (ss.map String.toList) :=
  Text.toList_intercalate rfl ss

theorem segments_ofSegments {ss : List String} (hne : ss ≠ []) (h : ∀ s ∈ ss, '/' ∉ s.toList) :
    (ofSegments ss).segments = ss := by
  have hpieces : Text.pieces '/' (Text.joined '/' (ss.map String.toList)) =
      ss.map String.toList := by
    refine Text.pieces_joined (by simpa using hne) fun cs hcs => ?_
    obtain ⟨s, hs, rfl⟩ := List.mem_map.1 hcs
    exact h s hs
  rw [segments, toList_ofSegments, hpieces, List.map_map]
  exact List.map_id'' (fun s => String.ofList_toList) ss

theorem ofSegments_segments (p : Path) : ofSegments p.segments = p := by
  have htext : (ofSegments p.segments).text.toList = p.text.toList := by
    rw [toList_ofSegments, segments, List.map_map]
    exact (congrArg _ (List.map_id'' (fun cs => String.toList_ofList) _)).trans
      (Text.joined_pieces _ _)
  cases p
  exact congrArg Path.mk (String.toList_inj.1 htext)

theorem isAbsolute_iff {p : Path} :
    p.isAbsolute = true ↔ ∃ s rest, p.segments = "" :: s :: rest := by
  rw [isAbsolute, beq_iff_eq, segments]
  cases htext : p.text.toList with
  | nil => simp [Text.pieces]
  | cons c cs =>
      obtain ⟨q, qs, hcs⟩ := List.exists_cons_of_ne_nil (Text.pieces_ne_nil '/' cs)
      by_cases hc : c = '/'
      · simp [Text.pieces, hcs, hc]
      · simp [Text.pieces, hcs, hc, ← String.toList_inj]

structure Named.Splits (n : Named) (p : Path) : Prop where
  segments : p.segments = n.before ++ n.name :: n.after
  isVoid_name : isVoid n.name = false
  name_ne_parent : n.name ≠ ".."
  isVoid_after : ∀ s ∈ n.after, isVoid s = true

theorem named?_eq_some_iff {p : Path} {n : Named} : p.named? = some n ↔ n.Splits p := by
  constructor
  · intro h
    simp only [named?] at h
    split at h
    · cases h
    · next name before hdrop =>
        split at h
        · cases h
        · next hparent =>
            obtain rfl := Option.some.inj h
            have hsplit : p.segments.reverse.takeWhile isVoid ++ name :: before =
                p.segments.reverse := hdrop ▸ List.takeWhile_append_dropWhile
            refine ⟨?_, ?_, by simpa using hparent, ?_⟩
            · have hreverse := congrArg List.reverse hsplit
              rw [List.reverse_reverse, List.reverse_append, List.reverse_cons,
                List.append_assoc] at hreverse
              exact hreverse.symm
            · have hhead := List.head?_dropWhile_not isVoid p.segments.reverse
              rw [hdrop] at hhead
              simpa using hhead
            · intro s hs
              exact List.all_eq_true.1 List.all_takeWhile s (List.mem_reverse.1 hs)
  · rintro ⟨hsegments, hvoid, hparent, hafter⟩
    have hafter : ∀ s ∈ n.after.reverse, isVoid s = true := fun s hs =>
      hafter s (List.mem_reverse.1 hs)
    have hdrop : p.segments.reverse.dropWhile isVoid = n.name :: n.before.reverse := by
      rw [hsegments, List.reverse_append, List.reverse_cons, List.append_assoc,
        List.dropWhile_append_of_pos hafter]
      simp [hvoid]
    have htake : p.segments.reverse.takeWhile isVoid = n.after.reverse := by
      rw [hsegments, List.reverse_append, List.reverse_cons, List.append_assoc,
        List.takeWhile_append_of_pos hafter]
      simp [hvoid]
    simp [named?, hdrop, htake, hparent]

theorem exists_segments_join (p q : Path) : ∃ lead, (p.join q).segments = lead ++ q.segments := by
  have hcut : ∀ cs : List Char, (Text.pieces '/' (cs ++ '/' :: q.text.toList)).map String.ofList =
      (Text.pieces '/' cs).map String.ofList ++ q.segments := fun cs => by
    rw [Text.pieces_append, List.map_append]
    rfl
  simp only [join]
  split
  · exact ⟨[], rfl⟩
  · split
    · next hend =>
        rcases Bool.or_eq_true_iff.1 hend with hempty | hslash
        · exact ⟨[], by simp [segments, String.isEmpty_iff.1 hempty]⟩
        · obtain ⟨cs, hcs⟩ := List.getLast?_eq_some_iff.1 (beq_iff_eq.1 hslash)
          refine ⟨(Text.pieces '/' cs).map String.ofList, ?_⟩
          rw [← hcut, segments, String.toList_append, hcs, List.append_assoc]
          rfl
    · refine ⟨p.segments, ?_⟩
      rw [segments, segments, ← hcut]
      simp

theorem Named.Splits.join {n : Named} {q : Path} (h : n.Splits q) (p : Path) :
    ∃ lead, Named.Splits ⟨lead ++ n.before, n.name, n.after⟩ (p.join q) := by
  obtain ⟨lead, hlead⟩ := exists_segments_join p q
  exact ⟨lead, by simp [hlead, h.segments], h.isVoid_name, h.name_ne_parent, h.isVoid_after⟩

theorem extension?_eq_some {p : Path} {e : String} (h : p.extension? = some e) :
    ∃ n : Named, n.Splits p ∧ (stemAndExtension n.name).2 = some e := by
  obtain ⟨n, hn, he⟩ := Option.bind_eq_some_iff.1 h
  exact ⟨n, named?_eq_some_iff.1 hn, he⟩

theorem Named.Splits.extension? {n : Named} {p : Path} (h : n.Splits p) :
    p.extension? = (stemAndExtension n.name).2 := by
  rw [Path.extension?, named?_eq_some_iff.2 h]
  rfl

theorem extension?_join {q : Path} {e : String} (h : q.extension? = some e) (p : Path) :
    (p.join q).extension? = some e := by
  obtain ⟨n, hn, he⟩ := extension?_eq_some h
  obtain ⟨lead, hlead⟩ := hn.join p
  rw [hlead.extension?, he]

structure IsExtension (e : String) : Prop where
  slash_not_mem : '/' ∉ e.toList
  dot_not_mem : '.' ∉ e.toList
  nonempty : e ≠ ""

theorem isExtension_outputExtension (d : Dialect) : IsExtension d.outputExtension := by
  cases d <;> exact ⟨by decide, by decide, by decide⟩

theorem stemAndExtension_eq_some {name stem e : String} :
    stemAndExtension name = (stem, some e) ↔
      name = stem ++ "." ++ e ∧ stem ≠ "" ∧ '.' ∉ e.toList := by
  simp only [stemAndExtension]
  constructor
  · intro h
    split at h
    · cases h
    · cases h
    · next a b hne hsplit =>
        obtain ⟨rfl, he⟩ := Prod.mk.inj h
        obtain rfl := Option.some.inj he
        obtain ⟨hname, hb⟩ := Text.splitLast?_eq_some_iff.1 hsplit
        refine ⟨?_, ?_, by simpa using hb⟩
        · rw [← String.toList_inj, hname]
          simp
        · intro hempty
          exact hne (by simpa [← String.toList_inj] using hempty)
  · rintro ⟨rfl, hstem, he⟩
    have hsplit : Text.splitLast? '.' (stem ++ "." ++ e).toList = some (stem.toList, e.toList) :=
      Text.splitLast?_eq_some_iff.2 ⟨by simp, he⟩
    rw [hsplit]
    split
    · next h => cases h
    · next h =>
        obtain ⟨hnil, -⟩ := Prod.mk.inj (Option.some.inj h)
        exact absurd (String.toList_inj.1 hnil) hstem
    · next h =>
        obtain ⟨rfl, rfl⟩ := Prod.mk.inj (Option.some.inj h)
        simp

theorem stem_prefix (name : String) :
    ∃ rest, name.toList = (stemAndExtension name).1.toList ++ rest ∧
      ((stemAndExtension name).1 = "" → name = "") := by
  simp only [stemAndExtension]
  split
  · exact ⟨[], by simp, id⟩
  · exact ⟨[], by simp, id⟩
  · next a b hne hsplit =>
      refine ⟨'.' :: b, by simpa using Text.splitLast?_append hsplit, fun h => ?_⟩
      exact absurd (by simpa [← String.toList_inj] using h) hne

namespace Named

def sibling (n : Named) (name : String) : Path :=
  ofSegments (n.before ++ [name])

variable {n : Named} {p : Path}

theorem Splits.segments_sibling (h : n.Splits p) {name : String} (hname : '/' ∉ name.toList) :
    (n.sibling name).segments = n.before ++ [name] := by
  refine segments_ofSegments (by simp) fun s hs => ?_
  rcases List.mem_append.1 hs with hs | hs
  · exact slash_not_mem_segment (h.segments ▸ List.mem_append_left _ hs)
  · exact List.mem_singleton.1 hs ▸ hname

theorem Splits.isAbsolute_sibling (h : n.Splits p) {name : String} (hname : '/' ∉ name.toList) :
    (n.sibling name).isAbsolute = p.isAbsolute := by
  have hempty : n.name ≠ "" := fun hempty => by
    have hvoid := h.isVoid_name
    rw [hempty] at hvoid
    cases hvoid
  rw [Bool.eq_iff_iff, isAbsolute_iff, isAbsolute_iff, h.segments_sibling hname, h.segments]
  cases n.before with
  | nil => simp [hempty]
  | cons s ss => cases ss <;> simp

theorem Splits.eq_sibling (h : n.Splits p) (hafter : n.after = []) : n.sibling n.name = p := by
  rw [sibling, ← hafter, ← h.segments, ofSegments_segments]

theorem Splits.slash_not_mem (h : n.Splits p) : '/' ∉ n.name.toList :=
  slash_not_mem_segment (h.segments ▸ List.mem_append_right _ List.mem_cons_self)

def renamed (n : Named) (extension : String) : String :=
  (stemAndExtension n.name).1 ++ "." ++ extension

theorem Splits.withExtension (h : n.Splits p) (extension : String) :
    p.withExtension extension = n.sibling ".." ∨
      p.withExtension extension = n.sibling (n.renamed extension) := by
  simp only [Path.withExtension, named?_eq_some_iff.2 h]
  split
  · exact .inl rfl
  · exact .inr rfl

theorem Splits.stem_ne_empty (h : n.Splits p) : (stemAndExtension n.name).1 ≠ "" := by
  obtain ⟨rest, -, hempty⟩ := stem_prefix n.name
  intro hstem
  have hvoid := h.isVoid_name
  rw [hempty hstem] at hvoid
  cases hvoid

theorem Splits.slash_not_mem_renamed (h : n.Splits p) {extension : String}
    (hext : IsExtension extension) : '/' ∉ (n.renamed extension).toList := by
  obtain ⟨rest, hstem, -⟩ := stem_prefix n.name
  have hname := h.slash_not_mem
  rw [hstem] at hname
  simp only [renamed, String.toList_append, List.mem_append, not_or]
  exact ⟨⟨fun hmem => hname (List.mem_append_left _ hmem), by decide⟩, hext.slash_not_mem⟩

theorem Splits.stemAndExtension_renamed (h : n.Splits p) {extension : String}
    (hext : IsExtension extension) :
    stemAndExtension (n.renamed extension) =
      ((stemAndExtension n.name).1, some extension) :=
  stemAndExtension_eq_some.2 ⟨rfl, h.stem_ne_empty, hext.dot_not_mem⟩

theorem Splits.isName_renamed (h : n.Splits p) {extension : String}
    (hext : IsExtension extension) :
    isVoid (n.renamed extension) = false ∧ n.renamed extension ≠ ".." := by
  have hlength : ∀ s : String, s ≠ "" → 0 < s.toList.length := fun s hs =>
    List.length_pos_iff.2 fun hnil => hs (String.toList_inj.1 hnil)
  have hstem := hlength _ h.stem_ne_empty
  have hend := hlength _ hext.nonempty
  have hlong : ∀ s : String, s.toList.length < 3 → n.renamed extension ≠ s := by
    rintro s hs rfl
    simp only [renamed, String.toList_append, List.length_append] at hs
    have hone : ".".toList.length = 1 := rfl
    omega
  refine ⟨?_, hlong ".." (by decide)⟩
  simp only [isVoid, Bool.or_eq_false_iff, beq_eq_false_iff_ne]
  exact ⟨hlong "" (by decide), hlong "." (by decide)⟩

end Named

end Path

end EnglishPages
