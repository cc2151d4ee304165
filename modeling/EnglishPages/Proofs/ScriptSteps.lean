import EnglishPages.Proofs.StatementRules
import EnglishPages.Script.JavaScript

/-!
What one line of a script source does, said once. A line closes some of the innermost blocks, each
by its own closing line, and unless it is blank it writes one line more: the header of a block, the
line that turns an open conditional into its alternative, or code. Every property of a whole run is
an induction over the lines with `Performs` as the step.
-/

namespace EnglishPages.Script

namespace Statement

def opened? : Statement → Option BlockKind
  | blank => none
  | functionHeader _ _ => some .function
  | methodHeader _ _ _ => some .method
  | explicitHeader _ => some .explicit
  | classHeader _ => some .classBody
  | eventHeader _ _ _ => some .event
  | conditionalHeader _ => some .conditional
  | alternativeHeader => some .alternative
  | loopHeader _ => some .loop
  | simple _ => none

def headerLine (st : Statement) : String :=
  (BlockStack.empty.perform st).2.headD ""

def earlyRules (inClassBody : Bool) : List (List Char → Option Statement) :=
  [blank?, function?, method? inClassBody, explicit?]

def lateRules : List (List Char → Option Statement) :=
  [class?, event?, conditional?, alternative?, loop?, declaration?, log?, call?, return?]

theorem read_cases (inClassBody : Bool) (line : List Char) :
    (∃ rule ∈ earlyRules inClassBody, rule line = some (read inClassBody line)) ∨
    line ≠ [] ∧ Text.endsWithAny ['{'] line = false ∧
      ((∃ rule ∈ lateRules, rule line = some (read inClassBody line)) ∨
        read inClassBody line = .simple (terminate line)) := by
  have hread : read inClassBody line =
      (((earlyRules inClassBody).findSome? fun rule => rule line).or
        (lateRules.findSome? fun rule => rule line)).getD (.simple (terminate line)) := by
    rw [← List.findSome?_append]
    rfl
  cases hearly : (earlyRules inClassBody).findSome? fun rule => rule line with
  | some st =>
      rw [hread, hearly]
      exact .inl (List.exists_of_findSome?_eq_some hearly)
  | none =>
      have hfails := List.findSome?_eq_none_iff.1 hearly
      have hne : line ≠ [] := by
        rintro rfl
        simpa [blank?] using hfails blank? (by simp [earlyRules])
      have hbrace : Text.endsWithAny ['{'] line = false := by
        simpa [explicit?] using hfails explicit? (by simp [earlyRules])
      refine .inr ⟨hne, hbrace, ?_⟩
      rw [hread, hearly, Option.none_or]
      cases hlate : lateRules.findSome? fun rule => rule line with
      | some st => exact .inl (List.exists_of_findSome?_eq_some hlate)
      | none => exact .inr rfl

/-- What a statement tells about the line that it was read from and the place of that line. -/
def Fits (inClassBody : Bool) (line : List Char) : Statement → Prop
  | blank => line = []
  | methodHeader _ _ _ => inClassBody = true
  | eventHeader _ _ _ => isTopLevel line = true
  | _ => True

theorem isTopLevel_of_event? {line : List Char} {st : Statement} (h : event? line = some st) :
    isTopLevel line = true := by
  obtain ⟨header, _, _, _, _, _, hon, _⟩ := event?_eq_some h
  simp [isTopLevel, hon]

theorem read_fits (inClassBody : Bool) (line : List Char) :
    Fits inClassBody line (read inClassBody line) := by
  rcases read_cases inClassBody line with ⟨rule, hmem, h⟩ | ⟨-, -, ⟨rule, hmem, h⟩ | h⟩
  · simp only [earlyRules, List.mem_cons, List.not_mem_nil, or_false] at hmem
    rcases hmem with rfl | rfl | rfl | rfl
    · obtain ⟨hline, hst⟩ := blank?_eq_some h
      exact hst ▸ hline
    · obtain ⟨_, _, _, _, _, hst⟩ := function?_eq_some h
      exact hst ▸ trivial
    · obtain ⟨hclass, _, _, _, _, _, _, hst⟩ := method?_eq_some h
      exact hst ▸ hclass
    · exact (explicit?_eq_some h).2 ▸ trivial
  · simp only [lateRules, List.mem_cons, List.not_mem_nil, or_false] at hmem
    rcases hmem with rfl | rfl | rfl | rfl | rfl | rfl | rfl | rfl | rfl
    · obtain ⟨_, _, _, _, _, hst⟩ := class?_eq_some h
      exact hst ▸ trivial
    · have htop := isTopLevel_of_event? h
      obtain ⟨_, _, _, _, _, _, _, _, _, _, hst⟩ := event?_eq_some h
      exact hst ▸ htop
    · obtain ⟨_, _, hst⟩ := conditional?_eq_some h
      exact hst ▸ trivial
    · exact alternative?_eq_some h ▸ trivial
    · obtain ⟨_, _, hst⟩ := loop?_eq_some h
      exact hst ▸ trivial
    · obtain ⟨_, _, _, _, _, hst | ⟨_, _, hst⟩⟩ := declaration?_eq_some h
      · exact hst ▸ trivial
      · exact hst ▸ trivial
    · obtain ⟨_, _, _, _, _, hst⟩ := log?_eq_some h
      exact hst ▸ trivial
    · obtain ⟨_, _, _, _, _, _, _, _, hst⟩ := call?_eq_some h
      exact hst ▸ trivial
    · obtain ⟨_, _, hst⟩ := return?_eq_some h
      exact hst ▸ trivial
  · exact h ▸ trivial

end Statement

namespace BlockStack

def leaving (s : BlockStack) (line : List Char) : BlockStack × List String :=
  if s.contains .classBody && Statement.isTopLevel line then s.closeAll else (s, [])

def statement (s : BlockStack) (line : List Char) : Statement :=
  Statement.read (s.leaving line).1.inClassBody line

theorem step_eq (s : BlockStack) (line : List Char) :
    s.step line = (((s.leaving line).1.perform (s.statement line)).1,
      (s.leaving line).2 ++ ((s.leaving line).1.perform (s.statement line)).2) := rfl

/-- `Performs st ks ks' ls`: with the blocks `ks` open, innermost first, the statement writes the
lines `ls` and leaves `ks'` open. -/
inductive Performs (st : Statement) :
    List BlockKind → List BlockKind → List String → Prop where
  | blank (ks : List BlockKind) (h : st = .blank) :
      Performs st ks ks.tail ((ks.take 1).map BlockKind.closer)
  | opening (closed kept : List BlockKind) {k : BlockKind} (h : st.opened? = some k) :
      Performs st (closed ++ kept) (k :: kept) (closed.map BlockKind.closer ++ [st.headerLine])
  | chaining (kept : List BlockKind) (h : st = .alternativeHeader) :
      Performs st (.conditional :: kept) (.alternative :: kept) ["\x7d else \x7b"]
  | code (closed kept : List BlockKind) {code : String} (h : st = .simple code) :
      Performs st (closed ++ kept) kept (closed.map BlockKind.closer ++ [code])

theorem performs_perform (s : BlockStack) (st : Statement) :
    Performs st s.kinds (s.perform st).1.kinds (s.perform st).2 := by
  obtain ⟨ks⟩ := s
  cases st with
  | blank => cases ks <;> exact .blank _ rfl
  | functionHeader name parameters =>
      have h : Performs (.functionHeader name parameters) (ks ++ []) _ _ := .opening ks [] rfl
      rwa [List.append_nil] at h
  | classHeader name =>
      have h : Performs (.classHeader name) (ks ++ []) _ _ := .opening ks [] rfl
      rwa [List.append_nil] at h
  | methodHeader isStatic name parameters =>
      have h : Performs (.methodHeader isStatic name parameters) _ _ _ :=
        .opening (ks.takeWhile (· == .method)) (ks.dropWhile (· == .method)) rfl
      rwa [List.takeWhile_append_dropWhile] at h
  | alternativeHeader =>
      cases ks with
      | nil => exact .opening [] [] rfl
      | cons k ks =>
          by_cases hk : k = .conditional
          · subst hk
            exact .chaining ks rfl
          · have hopen : perform ⟨k :: ks⟩ .alternativeHeader =
                opening ⟨k :: ks⟩ .alternative "else \x7b" := by
              simp [perform, innermost?, hk]
            rw [hopen]
            exact .opening [] (k :: ks) rfl
  | simple code => exact .code [] ks rfl
  | explicitHeader header => exact .opening [] ks rfl
  | eventHeader target event parameters => exact .opening [] ks rfl
  | conditionalHeader condition => exact .opening [] ks rfl
  | loopHeader condition => exact .opening [] ks rfl

/-- Where nothing is open, a statement that is not blank writes one line; closing blocks before it
only puts their closing lines in front. -/
theorem Performs.after_closing {st : Statement} {ks' : List BlockKind} {ls : List String}
    (h : Performs st [] ks' ls) (hst : st ≠ .blank) (ks : List BlockKind) :
    Performs st ks ks' (ks.map BlockKind.closer ++ ls) := by
  generalize hnil : ([] : List BlockKind) = opened at h
  cases h with
  | blank _ hblank => exact absurd hblank hst
  | opening closed kept hopen =>
      obtain ⟨rfl, rfl⟩ := List.append_eq_nil_iff.1 hnil.symm
      have h := Performs.opening ks [] hopen
      rwa [List.append_nil] at h
  | chaining kept _ => simp at hnil
  | code closed kept hcode =>
      obtain ⟨rfl, rfl⟩ := List.append_eq_nil_iff.1 hnil.symm
      have h := Performs.code ks [] hcode
      rwa [List.append_nil] at h

theorem statement_fits (s : BlockStack) (line : List Char) :
    Statement.Fits (s.leaving line).1.inClassBody line (s.statement line) :=
  Statement.read_fits _ line

theorem performs_step (s : BlockStack) (line : List Char) :
    Performs (s.statement line) s.kinds (s.step line).1.kinds (s.step line).2 := by
  rw [step_eq]
  have h := performs_perform (s.leaving line).1 (s.statement line)
  by_cases hleft : s.contains .classBody && Statement.isTopLevel line
  · have hleaving : s.leaving line = s.closeAll := by simp only [leaving, hleft, if_true]
    rw [hleaving] at h ⊢
    refine h.after_closing ?_ s.kinds
    intro hblank
    have hline : line = [] := by
      have hfits := s.statement_fits line
      rwa [hblank] at hfits
    simp [hline, show Statement.isTopLevel [] = false from rfl] at hleft
  · have hleaving : s.leaving line = (s, []) := by simp [leaving, hleft]
    rwa [hleaving] at h ⊢

def written (s : BlockStack) : List (List Char) → List String
  | [] => []
  | line :: rest => (s.step line).2 ++ written (s.step line).1 rest

theorem after_cons (s : BlockStack) (line : List Char) (rest : List (List Char)) :
    s.after (line :: rest) = (s.step line).1.after rest := rfl

theorem written_append (s : BlockStack) (ls ms : List (List Char)) :
    s.written (ls ++ ms) = s.written ls ++ (s.after ls).written ms := by
  induction ls generalizing s with
  | nil => rfl
  | cons line rest ih =>
      rw [List.cons_append, written, ih, after_cons, written, List.append_assoc]

theorem run_append (s : BlockStack) (ls ms : List (List Char)) :
    s.run (ls ++ ms) = s.written ls ++ (s.after ls).run ms := by
  induction ls generalizing s with
  | nil => rfl
  | cons line rest ih =>
      rw [List.cons_append, run_cons, ih, after_cons, written, List.append_assoc]

end BlockStack

end EnglishPages.Script
