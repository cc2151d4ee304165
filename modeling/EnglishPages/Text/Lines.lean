/-!
Pieces of a text between separators, and lines, which are the pieces between newlines. What stands
after the last separator is a piece too, so a text with `n` separators has `n + 1` pieces, and
joining the pieces by the separator gives the text back.
-/

namespace EnglishPages.Text

def pieces (sep : Char) : List Char → List (List Char)
  | [] => [[]]
  | c :: cs =>
      match pieces sep cs with
      | [] => [[c]]
      | p :: ps => if c = sep then [] :: p :: ps else (c :: p) :: ps

def joined (sep : Char) : List (List Char) → List Char
  | [] => []
  | [p] => p
  | p :: ps => p ++ sep :: joined sep ps

theorem joined_cons_cons (sep : Char) (p q : List Char) (ps : List (List Char)) :
    joined sep (p :: q :: ps) = p ++ sep :: joined sep (q :: ps) := rfl

def lines (cs : List Char) : List (List Char) :=
  pieces '\n' cs

def terminated (ls : List String) : String :=
  String.join (ls.map (· ++ "\n"))

@[simp] theorem terminated_nil : (terminated []).toList = [] := rfl

@[simp] theorem terminated_cons (l : String) (ls : List String) :
    (terminated (l :: ls)).toList = l.toList ++ '\n' :: (terminated ls).toList := by
  simp [terminated]

@[simp] theorem terminated_append (ls ms : List String) :
    (terminated (ls ++ ms)).toList = (terminated ls).toList ++ (terminated ms).toList := by
  induction ls with
  | nil => rfl
  | cons l ls ih => simp [ih]

theorem pieces_ne_nil (sep : Char) (cs : List Char) : pieces sep cs ≠ [] := by
  cases cs with
  | nil => simp [pieces]
  | cons c cs =>
      simp only [pieces]
      split
      · simp
      · split <;> simp

theorem not_mem_of_mem_pieces {sep : Char} {cs p : List Char} (h : p ∈ pieces sep cs) :
    sep ∉ p := by
  induction cs generalizing p with
  | nil =>
      obtain rfl := List.mem_singleton.1 h
      exact List.not_mem_nil
  | cons c cs ih =>
      simp only [pieces] at h
      split at h
      · next hnil => exact absurd hnil (pieces_ne_nil sep cs)
      · next q ps hps =>
          have hq : sep ∉ q := ih (hps ▸ List.mem_cons_self)
          split at h
          · rcases List.mem_cons.1 h with rfl | h
            · exact List.not_mem_nil
            · exact ih (hps ▸ h)
          · next hc =>
              rcases List.mem_cons.1 h with rfl | h
              · exact List.not_mem_cons_of_ne_of_not_mem (fun hsep => hc hsep.symm) hq
              · exact ih (hps ▸ List.mem_cons_of_mem q h)

theorem mem_of_mem_pieces {sep c : Char} {cs p : List Char} (hp : p ∈ pieces sep cs)
    (hc : c ∈ p) : c ∈ cs := by
  induction cs generalizing p with
  | nil =>
      obtain rfl := List.mem_singleton.1 hp
      exact hc
  | cons d cs ih =>
      simp only [pieces] at hp
      split at hp
      · next hnil => exact absurd hnil (pieces_ne_nil sep cs)
      · next q ps hps =>
          split at hp
          · rcases List.mem_cons.1 hp with rfl | hp
            · cases hc
            · exact List.mem_cons_of_mem d (ih (hps ▸ hp) hc)
          · rcases List.mem_cons.1 hp with rfl | hp
            · rcases List.mem_cons.1 hc with rfl | hc
              · exact List.mem_cons_self
              · exact List.mem_cons_of_mem d (ih (hps ▸ List.mem_cons_self) hc)
            · exact List.mem_cons_of_mem d (ih (hps ▸ List.mem_cons_of_mem q hp) hc)

theorem pieces_append (sep : Char) (cs ds : List Char) :
    pieces sep (cs ++ sep :: ds) = pieces sep cs ++ pieces sep ds := by
  induction cs with
  | nil =>
      obtain ⟨p, ps, hds⟩ := List.exists_cons_of_ne_nil (pieces_ne_nil sep ds)
      simp only [List.nil_append, pieces, hds, if_true, List.singleton_append]
  | cons c cs ih =>
      obtain ⟨p, ps, hcs⟩ := List.exists_cons_of_ne_nil (pieces_ne_nil sep cs)
      rw [hcs, List.cons_append] at ih
      simp only [List.cons_append, pieces, ih, hcs]
      split <;> rfl

theorem joined_pieces (sep : Char) (cs : List Char) : joined sep (pieces sep cs) = cs := by
  induction cs with
  | nil => rfl
  | cons c cs ih =>
      simp only [pieces]
      split
      · next h => exact absurd h (pieces_ne_nil sep cs)
      · next p ps h =>
          rw [h] at ih
          split
          · next hc => simp [joined, ih, hc]
          · cases ps <;> simp_all [joined]

theorem joined_cons_of_ne_nil {sep : Char} {p : List Char} {ps : List (List Char)} (h : ps ≠ []) :
    joined sep (p :: ps) = p ++ sep :: joined sep ps := by
  obtain ⟨q, qs, rfl⟩ := List.exists_cons_of_ne_nil h
  rfl

theorem pieces_eq_singleton {sep : Char} {cs : List Char} (h : sep ∉ cs) :
    pieces sep cs = [cs] := by
  induction cs with
  | nil => rfl
  | cons c cs ih =>
      have hc : c ≠ sep := fun heq => h (heq ▸ List.mem_cons_self)
      have hcs := ih fun hmem => h (List.mem_cons_of_mem c hmem)
      simp [pieces, hcs, hc]

theorem pieces_joined {sep : Char} {ps : List (List Char)} (hne : ps ≠ [])
    (h : ∀ p ∈ ps, sep ∉ p) : pieces sep (joined sep ps) = ps := by
  induction ps with
  | nil => exact absurd rfl hne
  | cons p ps ih =>
      have hp : pieces sep p = [p] := pieces_eq_singleton (h p List.mem_cons_self)
      cases ps with
      | nil => exact hp
      | cons q qs =>
          rw [joined_cons_cons, pieces_append, hp,
            ih (List.cons_ne_nil q qs) fun r hr => h r (List.mem_cons_of_mem p hr)]
          rfl

theorem toList_intercalate {sep : String} {c : Char} (hsep : sep.toList = [c])
    (ss : List String) :
    (sep.intercalate ss).toList = joined c (ss.map String.toList) := by
  induction ss with
  | nil => rfl
  | cons s ss ih =>
      cases ss with
      | nil => simp [joined]
      | cons r rs =>
          rw [String.intercalate_cons_cons, String.toList_append, String.toList_append, hsep, ih,
            List.append_assoc]
          rfl

theorem lines_eq_singleton {cs : List Char} (h : '\n' ∉ cs) : lines cs = [cs] :=
  pieces_eq_singleton h

theorem lines_cons {c : Char} {cs line : List Char} {rest : List (List Char)}
    (h : lines cs = line :: rest) :
    lines (c :: cs) = if c = '\n' then [] :: line :: rest else (c :: line) :: rest := by
  rw [lines] at h ⊢
  simp [pieces, h]

theorem lines_append (cs ds : List Char) : lines (cs ++ '\n' :: ds) = lines cs ++ lines ds :=
  pieces_append '\n' cs ds

theorem lines_terminated {ls : List String} (h : ∀ l ∈ ls, '\n' ∉ l.toList) :
    lines (terminated ls).toList = ls.map String.toList ++ [[]] := by
  induction ls with
  | nil => rfl
  | cons l ls ih =>
      obtain ⟨hl, hls⟩ := List.forall_mem_cons.1 h
      rw [terminated_cons, lines_append, lines_eq_singleton hl, ih hls]
      rfl

theorem lines_newline (cs : List Char) : lines ('\n' :: cs) = [] :: lines cs :=
  lines_append [] cs

theorem head?_of_lines {cs line : List Char} {rest : List (List Char)} {c : Char}
    (h : lines cs = line :: rest) (hc : line.head? = some c) : cs.head? = some c := by
  cases cs with
  | nil =>
      obtain ⟨rfl, -⟩ := List.cons.inj h
      cases hc
  | cons d cs =>
      obtain ⟨first, more, hcs⟩ := List.exists_cons_of_ne_nil (pieces_ne_nil '\n' cs)
      rw [lines_cons hcs] at h
      split at h
      · obtain ⟨rfl, -⟩ := List.cons.inj h
        cases hc
      · obtain ⟨rfl, -⟩ := List.cons.inj h
        exact hc

end EnglishPages.Text
