import EnglishPages.Proofs.FlatScan

/-!
The tokens of one statement. A reader of phrases takes tokens from the front, and what it takes does
not depend on what stands behind: if the tokens are cut off anywhere behind the phrase, it takes the
same ones. A statement is a phrase, or some phrases one after another, so it is read alike from its
own tokens alone.
-/

namespace EnglishPages.Scan

/-- Some of the front tokens are taken, and the same if some of those behind are cut off. -/
structure IsPhrase (f : List Token → List Token) : Prop where
  front : ∀ ts, f ts <+: ts
  cut : ∀ {us ts}, f ts <+: us → us <+: ts → f us = f ts

variable {f : List Token → List Token} {us ts : List Token}

theorem drop_front {phrase more : List Token} (h : phrase ++ more <+: us) (hus : us <+: ts) :
    more <+: us.drop phrase.length ∧ us.drop phrase.length <+: ts.drop phrase.length := by
  obtain ⟨behind, rfl⟩ := h
  obtain ⟨rest, rfl⟩ := hus
  simp only [List.append_assoc, List.drop_left]
  exact ⟨List.prefix_append more behind, rest, List.append_assoc more behind rest⟩

theorem IsPhrase.next (hf : IsPhrase f) {more : List Token} (h : f ts ++ more <+: us)
    (hus : us <+: ts) :
    f us = f ts ∧ more <+: us.drop (f ts).length ∧
      us.drop (f ts).length <+: ts.drop (f ts).length :=
  ⟨hf.cut ((List.prefix_append _ _).trans h) hus, drop_front h hus⟩

theorem append_front {phrase more : List Token} (hphrase : phrase <+: ts)
    (hmore : more <+: ts.drop phrase.length) : phrase ++ more <+: ts := by
  obtain ⟨rest, rfl⟩ := hphrase
  rw [List.drop_left] at hmore
  exact (List.prefix_append_right_inj phrase).2 hmore

theorem isPhrase_nil : IsPhrase fun _ => [] where
  front _ := List.nil_prefix
  cut _ _ := rfl

theorem isPhrase_takeWhile (p : Token → Bool) : IsPhrase (List.takeWhile p) where
  front _ := List.takeWhile_prefix p
  cut {us ts} h hus := by
    obtain ⟨rest, rfl⟩ := hus
    rw [List.takeWhile_append] at h ⊢
    split
    · next hall =>
        rw [if_pos hall] at h
        have hnil : rest.takeWhile p = [] := by
          have hlength := h.length_le
          rw [List.length_append] at hlength
          exact List.eq_nil_of_length_eq_zero (by omega)
        rw [hnil, List.append_nil]
        exact (List.takeWhile_prefix p).eq_of_length hall
    · rfl

theorem IsPhrase.headed {g : List Token → List Token} (hg : IsPhrase g) {p : Token → Bool}
    (hnil : f [] = []) (hcons : ∀ t ts, f (t :: ts) = if p t then t :: g ts else []) :
    IsPhrase f where
  front ts := by
    cases ts with
    | nil => simp [hnil]
    | cons t ts =>
        rw [hcons]
        split
        · exact List.cons_prefix_cons.2 ⟨rfl, hg.front ts⟩
        · exact List.nil_prefix
  cut {us ts} h hus := by
    cases us with
    | nil => rw [hnil, List.prefix_nil.1 h]
    | cons t us =>
        obtain ⟨rest, rfl⟩ := hus
        rw [List.cons_append, hcons] at h ⊢
        rw [hcons]
        split
        · next ht =>
            rw [if_pos ht] at h
            have hbehind := (List.cons_prefix_cons.1 h).2
            rw [hg.cut hbehind (List.prefix_append us rest)]
        · rfl

theorem isPhrase_leading (p : Token → Bool) : IsPhrase (leading p) :=
  isPhrase_nil.headed rfl (leading_cons p)

theorem isPhrase_withPhrase : IsPhrase withPhrase :=
  (isPhrase_takeWhile isAttribute).headed rfl fun _ _ => rfl

theorem pathPhrase_cons (t : Token) (ts : List Token) :
    pathPhrase (t :: ts) = if hasKind .path t then t :: leading isExtension ts else [] := by
  cases h : hasKind .path t <;> simp [pathPhrase, leading_cons, h]

theorem isPhrase_pathPhrase : IsPhrase pathPhrase :=
  (isPhrase_leading isExtension).headed rfl pathPhrase_cons

theorem importPhrase_front (ts : List Token) : (importPhrase ts).tokens <+: ts := by
  have hpath := isPhrase_pathPhrase.front
    ((ts.drop (importPhrase ts).type.length).drop (importPhrase ts).linking.length)
  have hlinking := append_front ((isPhrase_leading Cursor.isFrom).front _) hpath
  have htype := append_front ((isPhrase_leading _).front ts) hlinking
  rw [ImportPhrase.tokens, List.append_assoc]
  exact htype

theorem importPhrase_cut (h : (importPhrase ts).tokens <+: us) (hus : us <+: ts) :
    importPhrase us = importPhrase ts := by
  rw [ImportPhrase.tokens, List.append_assoc] at h
  obtain ⟨htype, h, hus⟩ := (isPhrase_leading fun t => t.isWord && !Cursor.isFrom t).next h hus
  obtain ⟨hlinking, h, hus⟩ := (isPhrase_leading Cursor.isFrom).next h hus
  have hpath := isPhrase_pathPhrase.cut h hus
  simp only [importPhrase, htype, hlinking, hpath]

variable {eof t : Token} {r : Option Header × List Token}

theorem create_front (t : Token) (ts : List Token) : (create t ts).2 <+: ts := by
  have hpage := (isPhrase_leading (·.isKeyword "page")).front ts
  rw [create]
  split
  · exact List.nil_prefix
  · exact hpage

theorem create_cut (h : (create t ts).2 <+: us) (hus : us <+: ts) : create t us = create t ts := by
  have hused : (create t ts).2 = leading (·.isKeyword "page") ts := by
    rw [create]
    split
    · next hnone => exact hnone.symm
    · rfl
  rw [hused] at h
  rw [create, create, (isPhrase_leading _).cut h hus]

theorem add_front (h : add eof t ts = .ok r) : r.2 <+: ts := by
  cases ts with
  | nil => cases h
  | cons word ts =>
      rw [add] at h
      split at h
      · cases h
        exact List.cons_prefix_cons.2 ⟨rfl, append_front ((isPhrase_leading _).front ts)
          (isPhrase_withPhrase.front _)⟩
      · cases h

theorem add_cut (h : add eof t ts = .ok r) (hused : r.2 <+: us) (hus : us <+: ts) (eof' : Token) :
    add eof' t us = .ok r := by
  cases ts with
  | nil => cases h
  | cons word ts =>
      rw [add] at h
      split at h
      · next hword =>
          cases h
          cases us with
          | nil => cases List.prefix_nil.1 hused
          | cons u us =>
              obtain ⟨rfl, hbehind⟩ := List.cons_prefix_cons.1 hus
              have hphrases := (List.cons_prefix_cons.1 hused).2
              obtain ⟨hcontent, hphrase, hbehind⟩ := (isPhrase_leading _).next hphrases hbehind
              have hattributes := isPhrase_withPhrase.cut hphrase hbehind
              simp only [add, if_pos hword, hcontent, hattributes]
      · cases h

theorem header_front (h : header eof t ts = .ok r) : r.2 <+: ts := by
  cases starts_of_header h with
  | nothing => exact List.nil_prefix
  | create => exact create_front t ts
  | add hadd => exact add_front hadd
  | function => exact (isPhrase_leading _).front ts
  | importing => exact importPhrase_front ts
  | title => exact (isPhrase_leading _).front ts
  | script => exact isPhrase_withPhrase.front ts

theorem header_congr {eof' : Token} (h : header eof t ts = .ok r)
    (hcreate : create t ts = r → create t us = r)
    (hadd : add eof t ts = .ok r → add eof' t us = .ok r)
    (hfunction : function t ts = r → function t us = r)
    (himport : t.isKeyword "import" = true → importing t ts = r → importing t us = r)
    (htitle : title t ts = r → title t us = r)
    (hscript : ∀ kind, script kind t ts = r → script kind t us = r) :
    header eof' t us = .ok r := by
  unfold header at h ⊢
  split at h
  · next hkind => rw [if_pos hkind, h]
  next hkind =>
  rw [if_neg hkind]
  split at h
  · next hvalue => rw [if_pos hvalue, hcreate (Except.ok.inj h)]
  next hvalue =>
  rw [if_neg hvalue]
  split at h
  · next hvalue => rw [if_pos hvalue, hadd h]
  next hvalue =>
  rw [if_neg hvalue]
  split at h
  · next hvalue => rw [if_pos hvalue, hfunction (Except.ok.inj h)]
  next hvalue =>
  rw [if_neg hvalue]
  split at h
  · next hvalue =>
      have hkeyword : t.isKeyword "import" = true := by simp_all [Token.isKeyword]
      rw [if_pos hvalue, himport hkeyword (Except.ok.inj h)]
  next hvalue =>
  rw [if_neg hvalue]
  split at h
  · next hvalue => rw [if_pos hvalue, htitle (Except.ok.inj h)]
  next hvalue =>
  rw [if_neg hvalue]
  cases hkind : ScriptKind.ofWord? t.value with
  | none =>
      rw [hkind] at h
      exact h
  | some kind =>
      rw [hkind] at h
      exact congrArg Except.ok (hscript kind (Except.ok.inj h))

theorem header_cut (h : header eof t ts = .ok r) (hused : r.2 <+: us) (hus : us <+: ts)
    (eof' : Token) : header eof' t us = .ok r := by
  refine header_congr h ?_ (fun hadd => add_cut hadd hused hus eof') ?_ ?_ ?_ ?_
  · rintro rfl
    exact create_cut hused hus
  · rintro rfl
    rw [function, function, (isPhrase_leading _).cut hused hus]
  · rintro - rfl
    rw [importing, importing, importPhrase_cut hused hus]
  · rintro rfl
    rw [title, title, (isPhrase_leading _).cut hused hus]
  · rintro kind rfl
    rw [script, script, isPhrase_withPhrase.cut hused hus]

theorem headers_alone {h : Header} {used : List Token}
    (hread : header eof t ts = .ok (some h, used)) (eof' : Token) :
    headers eof' (t :: used) = .ok [h] := by
  have halone := header_cut hread List.prefix_rfl (header_front hread) eof'
  rw [headers_cons, halone]
  change (headers eof' (used.drop used.length)).map _ = _
  rw [List.drop_length]
  rfl

theorem exists_tokens_of_mem {h : Header} {hs : List Header} {skip : Nat}
    (hread : headersFrom eof skip ts = .ok hs) (hmem : h ∈ hs) :
    ∃ before t used after, ts = before ++ (t :: used ++ after) ∧
      header eof t (used ++ after) = .ok (some h, used) := by
  induction ts generalizing skip hs with
  | nil =>
      cases skip <;> cases hread <;> cases hmem
  | cons t ts ih =>
      have hlater {skip : Nat} {hs : List Header} (hread : headersFrom eof skip ts = .ok hs)
          (hmem : h ∈ hs) : ∃ before u used after, t :: ts = before ++ (u :: used ++ after) ∧
            header eof u (used ++ after) = .ok (some h, used) := by
        obtain ⟨before, u, used, after, hts, hheader⟩ := ih hread hmem
        exact ⟨t :: before, u, used, after, congrArg (t :: ·) hts, hheader⟩
      cases skip with
      | succ skip => exact hlater hread hmem
      | zero =>
          obtain ⟨⟨first, used⟩, later, hheader, hrest, rfl⟩ := headersFrom_zero_eq_ok hread
          rcases List.mem_append.1 hmem with hfirst | hmem
          · obtain rfl := Option.mem_toList.1 hfirst
            obtain ⟨after, rfl⟩ := header_front hheader
            exact ⟨[], t, used, after, rfl, hheader⟩
          · exact hlater hrest hmem

end EnglishPages.Scan
