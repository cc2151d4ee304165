import EnglishPages.Text.Blank
import EnglishPages.Text.Lines
import EnglishPages.Text.WordChar

/-!
Braces of a text, matched by nesting. A text is balanced when no prefix closes more braces than it
opens and the whole opens as many as it closes.

`nesting` is the same thing as a walk: it keeps the number of braces that are open and stops at a
closing brace that has no partner. Walks compose along the text, which the two counts do not, so
everything about a text in pieces is proved by walking.
-/

namespace EnglishPages.Text

/-- Every closing brace has an opening one before it, and every opening one a closing one after
it. -/
structure Balanced (cs : List Char) : Prop where
  prefixes : ∀ p, p <+: cs → p.count '}' ≤ p.count '{'
  total : cs.count '{' = cs.count '}'

def Braceless (cs : List Char) : Prop :=
  ∀ c ∈ cs, c ≠ '{' ∧ c ≠ '}'

instance : DecidablePred Braceless := fun cs =>
  List.decidableBAll (fun c => c ≠ '{' ∧ c ≠ '}') cs

theorem braceless_append {cs ds : List Char} :
    Braceless (cs ++ ds) ↔ Braceless cs ∧ Braceless ds :=
  List.forall_mem_append

theorem Braceless.of_forall {p : Char → Bool} (hopen : p '{' = false) (hclose : p '}' = false)
    {cs : List Char} (h : ∀ c ∈ cs, p c = true) : Braceless cs := by
  intro c hc
  have hp := h c hc
  constructor
  · rintro rfl
    exact absurd hp (by simp [hopen])
  · rintro rfl
    exact absurd hp (by simp [hclose])

theorem braceless_of_word {w : List Char} (h : ∀ c ∈ w, isWord c = true) : Braceless w :=
  .of_forall (by decide) (by decide) h

theorem braceless_of_blank {cs : List Char} (h : isBlankText cs = true) : Braceless cs :=
  .of_forall (by decide) (by decide) (List.all_eq_true.1 h)

/-- The number of open braces after a text that starts with `d` of them open; nothing when a brace
is closed that was never opened. -/
def nesting : Nat → List Char → Option Nat
  | d, [] => some d
  | d, c :: cs =>
      if c = '{' then nesting (d + 1) cs
      else if c = '}' then
        match d with
        | 0 => none
        | d + 1 => nesting d cs
      else nesting d cs

@[simp] theorem nesting_nil (d : Nat) : nesting d [] = some d := rfl

theorem nesting_other {c : Char} (hopen : c ≠ '{') (hclose : c ≠ '}') (d : Nat) (cs : List Char) :
    nesting d (c :: cs) = nesting d cs := by
  simp [nesting, hopen, hclose]

theorem nesting_append (d : Nat) (cs ds : List Char) :
    nesting d (cs ++ ds) = (nesting d cs).bind fun e => nesting e ds := by
  induction cs generalizing d with
  | nil => rfl
  | cons c cs ih =>
      simp only [List.cons_append, nesting]
      split
      · exact ih (d + 1)
      · split
        · cases d with
          | zero => rfl
          | succ d => exact ih d
        · exact ih d

theorem nesting_append_of_eq {d e : Nat} {cs : List Char} (h : nesting d cs = some e)
    (ds : List Char) : nesting d (cs ++ ds) = nesting e ds := by
  simp [nesting_append, h]

theorem nesting_of_braceless {cs : List Char} (h : Braceless cs) (d : Nat) :
    nesting d cs = some d := by
  induction cs with
  | nil => rfl
  | cons c cs ih =>
      obtain ⟨hopen, hclose⟩ := h c List.mem_cons_self
      rw [nesting_other hopen hclose]
      exact ih fun c hc => h c (List.mem_cons_of_mem _ hc)

theorem count_of_nesting {d e : Nat} {cs : List Char} (h : nesting d cs = some e) :
    d + cs.count '{' = e + cs.count '}' := by
  induction cs generalizing d with
  | nil => simpa using h
  | cons c cs ih =>
      simp only [nesting] at h
      split at h
      · next hc => subst hc; have := ih h; simp; omega
      · split at h
        · next hc =>
            subst hc
            cases d with
            | zero => simp at h
            | succ d => have := ih h; simp; omega
        · next hopen hclose =>
            have := ih h
            simp [hopen, hclose]
            omega

theorem nesting_prefix {d e : Nat} {p cs : List Char} (h : nesting d cs = some e)
    (hp : p <+: cs) : ∃ f, nesting d p = some f := by
  obtain ⟨rest, rfl⟩ := hp
  rw [nesting_append] at h
  obtain ⟨f, hf, -⟩ := Option.bind_eq_some_iff.1 h
  exact ⟨f, hf⟩

theorem Balanced.of_nesting {cs : List Char} (h : nesting 0 cs = some 0) : Balanced cs where
  prefixes p hp := by
    obtain ⟨f, hf⟩ := nesting_prefix h hp
    have := count_of_nesting hf
    omega
  total := by
    have := count_of_nesting h
    omega

def braces (cs : List Char) : List Char :=
  cs.filter fun c => c == '{' || c == '}'

@[simp] theorem braces_append (cs ds : List Char) : braces (cs ++ ds) = braces cs ++ braces ds :=
  List.filter_append cs ds

theorem braces_of_braceless {cs : List Char} (h : Braceless cs) : braces cs = [] := by
  refine List.filter_eq_nil_iff.2 fun c hc => ?_
  obtain ⟨hopen, hclose⟩ := h c hc
  simp [hopen, hclose]

theorem braceless_of_braces {cs : List Char} (h : braces cs = []) : Braceless cs := by
  intro c hc
  simpa using List.filter_eq_nil_iff.1 h c hc

theorem braces_around {front back : List Char} (hfront : Braceless front) (hback : Braceless back)
    (cs : List Char) : braces (front ++ cs ++ back) = braces cs := by
  simp [braces_of_braceless hfront, braces_of_braceless hback]

theorem count_braces {c : Char} (hc : (c == '{' || c == '}') = true) (cs : List Char) :
    (braces cs).count c = cs.count c :=
  List.count_filter (p := fun c => c == '{' || c == '}') hc

theorem count_of_braces_eq {cs ds : List Char} (h : braces cs = braces ds) :
    cs.count '{' = ds.count '{' ∧ cs.count '}' = ds.count '}' := by
  constructor
  · rw [← count_braces rfl cs, h, count_braces rfl]
  · rw [← count_braces rfl cs, h, count_braces rfl]

theorem nesting_braces (d : Nat) (cs : List Char) : nesting d (braces cs) = nesting d cs := by
  induction cs generalizing d with
  | nil => rfl
  | cons c cs ih =>
      by_cases hopen : c = '{'
      · subst hopen
        exact ih (d + 1)
      · by_cases hclose : c = '}'
        · subst hclose
          cases d with
          | zero => rfl
          | succ d => exact ih d
        · have hskip : braces (c :: cs) = braces cs := by simp [braces, hopen, hclose]
          rw [hskip, nesting_other hopen hclose, ih]

theorem nesting_of_braces_eq {cs ds : List Char} (h : braces cs = braces ds) (d : Nat) :
    nesting d cs = nesting d ds := by
  rw [← nesting_braces d cs, h, nesting_braces]

theorem nesting_add {d e : Nat} {cs : List Char} (h : nesting d cs = some e) (k : Nat) :
    nesting (k + d) cs = some (k + e) := by
  induction cs generalizing d with
  | nil =>
      obtain rfl : d = e := Option.some.inj h
      rfl
  | cons c cs ih =>
      by_cases hopen : c = '{'
      · subst hopen
        exact ih (d := d + 1) h
      · by_cases hclose : c = '}'
        · subst hclose
          cases d with
          | zero => exact nomatch h
          | succ d => exact ih (d := d) h
        · rw [nesting_other hopen hclose] at h ⊢
          exact ih h

theorem exists_nesting {d : Nat} {cs : List Char}
    (h : ∀ p, p <+: cs → p.count '}' ≤ d + p.count '{') : ∃ e, nesting d cs = some e := by
  induction cs generalizing d with
  | nil => exact ⟨d, rfl⟩
  | cons c cs ih =>
      have htail : ∀ p, p <+: cs → (c :: p).count '}' ≤ d + (c :: p).count '{' :=
        fun p hp => h (c :: p) (List.cons_prefix_cons.2 ⟨rfl, hp⟩)
      by_cases hopen : c = '{'
      · subst hopen
        refine ih (d := d + 1) fun p hp => ?_
        have := htail p hp
        simp at this
        omega
      · by_cases hclose : c = '}'
        · subst hclose
          cases d with
          | zero =>
              have := htail [] List.nil_prefix
              simp at this
          | succ d =>
              refine ih (d := d) fun p hp => ?_
              have := htail p hp
              simp at this
              omega
        · rw [nesting_other hopen hclose]
          refine ih fun p hp => ?_
          simpa [hopen, hclose] using htail p hp

theorem Balanced.nesting {cs : List Char} (h : Balanced cs) : nesting 0 cs = some 0 := by
  obtain ⟨e, he⟩ := exists_nesting (d := 0) fun p hp => by simpa using h.prefixes p hp
  have hcount := count_of_nesting he
  have htotal := h.total
  obtain rfl : e = 0 := by omega
  exact he

theorem nesting_terminated_cons {d e : Nat} {l : String} (h : nesting d l.toList = some e)
    (ls : List String) :
    nesting d (terminated (l :: ls)).toList = nesting e (terminated ls).toList := by
  rw [terminated_cons, nesting_append_of_eq h, nesting_other (by decide) (by decide)]

/-- In a text given by its lines, a line that ends in an opening brace and has the lines `rest`
after it is closed by the line `closer`: that one starts with a closing brace, and the lines
between are balanced, so the two braces are partners. -/
def ClosedBy (rest : List String) (closer : String) : Prop :=
  ∃ inside below, rest = inside ++ closer :: below ∧ Balanced (terminated inside).toList ∧
    closer.toList.head? = some '}'

theorem Balanced.not_append_close {cs ds : List Char} (h : Balanced cs) :
    ¬ Balanced (cs ++ '}' :: ds) := by
  intro hmore
  have hprefix := hmore.prefixes (cs ++ ['}']) ⟨ds, by simp⟩
  have hclose : (cs ++ ['}']).count '}' = cs.count '}' + 1 := by simp
  have hopen : (cs ++ ['}']).count '{' = cs.count '{' := by simp
  have htotal := h.total
  omega

theorem ClosedBy.unique {rest : List String} {closer closer' : String}
    (h : ClosedBy rest closer) (h' : ClosedBy rest closer') : closer = closer' := by
  obtain ⟨inside, below, rfl, hinside, hclose⟩ := h
  obtain ⟨inside', below', heq, hinside', hclose'⟩ := h'
  -- Of the two insides one is a prefix of the other; if it is a proper one, the longer inside
  -- holds the closing line of the shorter.
  rcases List.append_eq_append_iff.1 heq with ⟨more, hmore, htail⟩ | ⟨more, hmore, htail⟩
  · cases more with
    | nil => exact (List.cons.inj htail).1
    | cons l more =>
        obtain ⟨rfl, -⟩ := List.cons.inj htail
        obtain ⟨cs, hcs⟩ := List.head?_eq_some_iff.1 hclose
        rw [hmore, terminated_append, terminated_cons, hcs] at hinside'
        exact absurd hinside' hinside.not_append_close
  · cases more with
    | nil => exact (List.cons.inj htail).1.symm
    | cons l more =>
        obtain ⟨rfl, -⟩ := List.cons.inj htail
        obtain ⟨cs, hcs⟩ := List.head?_eq_some_iff.1 hclose'
        rw [hmore, terminated_append, terminated_cons, hcs] at hinside
        exact absurd hinside hinside'.not_append_close

end EnglishPages.Text
