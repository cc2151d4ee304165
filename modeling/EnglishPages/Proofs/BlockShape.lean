import EnglishPages.Proofs.ScriptSteps

/-!
The shape of the open blocks of a script, whatever lines have been read. A function or a class is
always the outermost block, a method stands directly inside a class, and no event handler is open
inside a class. The last one is not checked where a handler is opened: it holds because the line of
a handler is a line of the top level, which closes a class before it is read.
-/

namespace EnglishPages.Script

namespace BlockKind

def inner : List BlockKind :=
  [event, conditional, alternative, loop, explicit]

/-- Open blocks, outermost first: a function, a class, or a class and one of its methods, if any of
these is open at all, and inside it blocks of the inner kinds, handlers only outside a class. -/
def WellNested (ks : List BlockKind) : Prop :=
  ∃ scope rest, ks = scope ++ rest ∧
    scope ∈ [[], [function], [classBody], [classBody, method]] ∧
    (∀ k ∈ rest, k ∈ inner) ∧ (classBody ∈ scope → event ∉ rest)

end BlockKind

namespace BlockStack

inductive Shape : List BlockKind → Prop where
  | empty : Shape []
  | function : Shape [.function]
  | classBody : Shape [.classBody]
  | method : Shape [.method, .classBody]
  | inner {k : BlockKind} {ks : List BlockKind} (hk : k ∈ BlockKind.inner)
      (hevent : k = .event → .classBody ∉ ks) (h : Shape ks) : Shape (k :: ks)

variable {s : BlockStack} {k : BlockKind} {ks : List BlockKind}

theorem Shape.tail (h : Shape ks) : Shape ks.tail := by
  cases h with
  | empty => exact .empty
  | function => exact .empty
  | classBody => exact .empty
  | method => exact .classBody
  | inner _ _ h => exact h

theorem Shape.dropMethods (h : Shape s.kinds) (hclass : s.inClassBody = true) :
    s.kinds.dropWhile (· == .method) = [.classBody] := by
  obtain ⟨ks⟩ := s
  cases h with
  | empty => simp [inClassBody, contains] at hclass
  | function => simp [inClassBody, contains] at hclass
  | classBody => rfl
  | method => rfl
  | inner hk _ _ =>
      have hinnermost : ∀ k ∈ BlockKind.inner, k ≠ .classBody ∧ k ≠ .method := by decide
      simp [inClassBody, innermost?, hinnermost _ hk] at hclass

theorem Shape.perform {st : Statement} (h : Shape s.kinds)
    (hmethod : st.opened? = some .method → s.inClassBody = true)
    (hevent : st.opened? = some .event → .classBody ∉ s.kinds) :
    Shape (s.perform st).1.kinds := by
  cases st with
  | blank =>
      have htail : s.closeInnermost.1.kinds = s.kinds.tail := by
        obtain ⟨ks⟩ := s
        cases ks <;> rfl
      exact htail ▸ h.tail
  | functionHeader name parameters => exact .function
  | classHeader name => exact .classBody
  | methodHeader isStatic name parameters =>
      have hclass : (s.perform (.methodHeader isStatic name parameters)).1.kinds =
          .method :: s.kinds.dropWhile (· == .method) := rfl
      rw [hclass, h.dropMethods (hmethod rfl)]
      exact .method
  | explicitHeader header => exact .inner (by decide) (by simp) h
  | eventHeader target event parameters => exact .inner (by decide) (fun _ => hevent rfl) h
  | conditionalHeader condition => exact .inner (by decide) (by simp) h
  | alternativeHeader =>
      by_cases hinnermost : s.innermost? = some .conditional
      · have hchain : (s.perform .alternativeHeader).1.kinds = .alternative :: s.kinds.tail := by
          simp [BlockStack.perform, hinnermost, chain]
        exact hchain ▸ .inner (by decide) (by simp) h.tail
      · have hopen : (s.perform .alternativeHeader).1.kinds = .alternative :: s.kinds := by
          simp [BlockStack.perform, hinnermost, opening]
        exact hopen ▸ .inner (by decide) (by simp) h
  | loopHeader condition => exact .inner (by decide) (by simp) h
  | simple code => exact h

theorem Shape.leaving (h : Shape s.kinds) (line : List Char) : Shape (s.leaving line).1.kinds := by
  unfold BlockStack.leaving
  split
  · exact .empty
  · exact h

theorem classBody_not_mem_leaving {line : List Char} (htop : Statement.isTopLevel line = true) :
    .classBody ∉ (s.leaving line).1.kinds := by
  unfold BlockStack.leaving
  split
  · exact List.not_mem_nil
  · next hleft => simpa [contains, htop] using hleft

theorem Shape.step (h : Shape s.kinds) (line : List Char) : Shape (s.step line).1.kinds := by
  rw [step_eq]
  have hfits := s.statement_fits line
  refine (h.leaving line).perform ?_ ?_
  · intro hmethod
    cases hst : s.statement line <;> simp_all [Statement.opened?, Statement.Fits]
  · intro hevent
    refine classBody_not_mem_leaving ?_
    cases hst : s.statement line <;> simp_all [Statement.opened?, Statement.Fits]

theorem Shape.after (h : Shape s.kinds) (ls : List (List Char)) : Shape (s.after ls).kinds := by
  induction ls generalizing s with
  | nil => exact h
  | cons line rest ih => exact ih (h.step line)

theorem Shape.wellNested (h : Shape ks) : BlockKind.WellNested ks.reverse := by
  induction h with
  | empty => exact ⟨[], [], rfl, by simp, by simp, by simp⟩
  | function => exact ⟨[.function], [], rfl, by simp, by simp, by simp⟩
  | classBody => exact ⟨[.classBody], [], rfl, by simp, by simp, by simp⟩
  | method => exact ⟨[.classBody, .method], [], rfl, by simp, by simp, by simp⟩
  | @inner k ks hk hevent _ ih =>
      obtain ⟨scope, rest, hks, hscope, hrest, hno⟩ := ih
      refine ⟨scope, rest ++ [k], by simp [hks], hscope, ?_, ?_⟩
      · intro j hj
        rcases List.mem_append.1 hj with hj | hj
        · exact hrest j hj
        · exact List.mem_singleton.1 hj ▸ hk
      · intro hclass hmem
        have hopen : .classBody ∈ ks :=
          List.mem_reverse.1 (hks ▸ List.mem_append_left rest hclass)
        rcases List.mem_append.1 hmem with hmem | hmem
        · exact hno hclass hmem
        · exact hevent (List.mem_singleton.1 hmem).symm hopen

/-- After any lines at all, and so after every line of every source, the open blocks are well
nested. -/
theorem wellNested_after (ls : List (List Char)) :
    BlockKind.WellNested (BlockStack.empty.after ls).kinds.reverse :=
  (Shape.empty.after ls).wellNested

end BlockStack

end EnglishPages.Script
