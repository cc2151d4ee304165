import EnglishPages.Proofs.Scanning
import EnglishPages.Script.Statement

/-!
The rules of the script dialect, read backwards: a rule that fits a line gives a statement of one
form, and the parts of that statement are cut from the line by the readers that the rule names.
-/

namespace EnglishPages.Script.Statement

open Text

variable {inClassBody : Bool} {line cs : List Char} {st : Statement}

theorem blank?_eq_some (h : blank? line = some st) : line = [] ∧ st = .blank := by
  simp only [blank?] at h
  split at h
  · simp_all
  · simp at h

theorem function?_eq_some (h : function? line = some st) :
    ∃ header name after, afterLeading? "function" line = some header ∧
      word? header = some (name, after) ∧
      st = .functionHeader (String.ofList name) (parameters after) := by
  simp only [function?, Option.bind_eq_bind, Option.bind_eq_some_iff, Prod.exists] at h
  obtain ⟨header, hheader, name, after, hname, hst⟩ := h
  exact ⟨header, name, after, hheader, hname, (Option.some.inj hst).symm⟩

theorem signature?_eq_some {name inside : List Char} (h : signature? cs = some (name, inside)) :
    ∃ rest between after, word? cs = some (name, rest) ∧
      trimStart rest = '(' :: between ++ ')' :: after ∧ inside = trim between := by
  simp only [signature?, Option.bind_eq_bind, Option.bind_eq_some_iff, Prod.exists] at h
  obtain ⟨name', rest, hname, opened, hopened, between, after, hbetween, h⟩ := h
  split at h
  · simp only [Option.some.injEq, Prod.mk.injEq] at h
    obtain ⟨rfl, rfl⟩ := h
    refine ⟨rest, between, after, hname, ?_, rfl⟩
    rw [after?_eq_some hopened, splitFirst?_append hbetween, List.cons_append]
  · simp at h

theorem method?_eq_some (h : method? inClassBody line = some st) :
    inClassBody = true ∧ ∃ isStatic cs name inside, cs <:+ line ∧
      signature? cs = some (name, inside) ∧
      st = .methodHeader isStatic (String.ofList name) (String.ofList inside) := by
  simp only [method?, Option.bind_eq_bind, Option.bind_eq_some_iff, Prod.exists] at h
  obtain ⟨isStatic, name, inside, hsig, h⟩ := h
  split at h
  · next hclass =>
      have hst : st = .methodHeader isStatic (String.ofList name) (String.ofList inside) :=
        (Option.some.inj h).symm
      refine ⟨(Bool.and_eq_true _ _ ▸ hclass).1, isStatic, ?_⟩
      rcases Option.or_eq_some_iff.1 hsig with hstatic | ⟨-, hplain⟩
      · obtain ⟨sig, hsig, heq⟩ := Option.map_eq_some_iff.1 hstatic
        obtain ⟨rest, hrest, hsig⟩ := Option.bind_eq_some_iff.1 hsig
        simp only [Prod.mk.injEq] at heq
        exact ⟨rest, name, inside, afterLeading?_suffix hrest, heq.2 ▸ hsig, hst⟩
      · obtain ⟨sig, hsig, heq⟩ := Option.map_eq_some_iff.1 hplain
        simp only [Prod.mk.injEq] at heq
        exact ⟨line, name, inside, List.suffix_refl line, heq.2 ▸ hsig, hst⟩
  · simp at h

theorem explicit?_eq_some (h : explicit? line = some st) :
    endsWithAny ['{'] line = true ∧ st = .explicitHeader (String.ofList line) := by
  simp only [explicit?] at h
  split at h
  · simp_all
  · simp at h

theorem class?_eq_some (h : class? line = some st) :
    ∃ header name after, afterLeading? "class" line = some header ∧
      word? header = some (name, after) ∧ st = .classHeader (String.ofList name) := by
  simp only [class?, Option.bind_eq_bind, Option.bind_eq_some_iff, Prod.exists] at h
  obtain ⟨header, hheader, name, after, hname, hst⟩ := h
  exact ⟨header, name, after, hheader, hname, (Option.some.inj hst).symm⟩

theorem event?_eq_some (h : event? line = some st) :
    ∃ header target between rest event after, afterLeading? "on" line = some header ∧
      word? header = some (target, between) ∧ afterBlanks? between = some rest ∧
      word? rest = some (event, after) ∧
      st = .eventHeader (String.ofList target) (String.ofList event) (parameters after) := by
  simp only [event?, Option.bind_eq_bind, Option.bind_eq_some_iff, Prod.exists] at h
  obtain ⟨header, hheader, target, between, htarget, rest, hrest, event, after, hevent, hst⟩ := h
  exact ⟨header, target, between, rest, event, after, hheader, htarget, hrest, hevent,
    (Option.some.inj hst).symm⟩

theorem enclosed?_eq_some {inside after : List Char} (h : enclosed? cs = some (inside, after)) :
    trimStart cs = '(' :: inside ++ ')' :: after := by
  obtain ⟨opened, hopened, hinside⟩ := Option.bind_eq_some_iff.1 h
  rw [after?_eq_some hopened, splitLast?_append hinside, List.cons_append]

theorem condition?_eq_some {keyword condition : String}
    (h : condition? keyword line = some condition) :
    ∃ rest inside after, afterKeyword? keyword.toList line = some rest ∧
      enclosed? rest = some (inside, after) ∧ condition = String.ofList (trim inside) := by
  simp only [condition?, Option.bind_eq_bind, Option.bind_eq_some_iff, Prod.exists] at h
  obtain ⟨rest, hrest, inside, after, hinside, h⟩ := h
  split at h
  · simp at h
  · exact ⟨rest, inside, after, hrest, hinside, (Option.some.inj h).symm⟩

theorem conditional?_eq_some (h : conditional? line = some st) :
    ∃ condition, condition? "when" line = some condition ∧ st = .conditionalHeader condition := by
  obtain ⟨condition, hcondition, hst⟩ := Option.map_eq_some_iff.1 h
  exact ⟨condition, hcondition, hst.symm⟩

theorem loop?_eq_some (h : loop? line = some st) :
    ∃ condition, condition? "loop" line = some condition ∧ st = .loopHeader condition := by
  obtain ⟨condition, hcondition, hst⟩ := Option.map_eq_some_iff.1 h
  exact ⟨condition, hcondition, hst.symm⟩

theorem alternative?_eq_some (h : alternative? line = some st) : st = .alternativeHeader := by
  simp only [alternative?] at h
  split at h
  · exact (Option.some.inj h).symm
  · simp at h

theorem declaration?_eq_some (h : declaration? line = some st) :
    ∃ header name after, header <:+ line ∧ word? header = some (name, after) ∧
      (st = .simple ("let " ++ String.ofList name ++ ";") ∨
        ∃ value, trimStart after = '=' :: value ∧
          st = .simple ("let " ++ String.ofList name ++ " = " ++
            String.ofList (withoutSemicolon (trim value)) ++ ";")) := by
  simp only [declaration?, Option.bind_eq_bind, Option.bind_eq_some_iff, Prod.exists] at h
  obtain ⟨header, hheader, name, after, hname, h⟩ := h
  have hsuffix : header <:+ line := by
    rcases Option.or_eq_some_iff.1 hheader with hvar | ⟨-, hvaribal⟩
    · exact afterLeading?_suffix hvar
    · exact afterLeading?_suffix hvaribal
  refine ⟨header, name, after, hsuffix, hname, ?_⟩
  split at h
  · exact .inl (Option.some.inj h).symm
  · exact .inl (Option.some.inj h).symm
  · next value _ hvalue => exact .inr ⟨_, after?_eq_some hvalue, (Option.some.inj h).symm⟩

theorem log?_eq_some (h : log? line = some st) :
    ∃ rest inside after, rest <:+ line ∧ enclosed? rest = some (inside, after) ∧
      st = .simple ("console.log(" ++ String.ofList (trim inside) ++ ");") := by
  simp only [log?, Option.bind_eq_bind, Option.bind_eq_some_iff, Prod.exists] at h
  obtain ⟨rest, hrest, inside, after, hinside, h⟩ := h
  have hsuffix : rest <:+ line := by
    rcases Option.or_eq_some_iff.1 hrest with hlog | ⟨-, hprint⟩
    · exact afterKeyword?_suffix hlog
    · exact afterKeyword?_suffix hprint
  split at h
  · exact ⟨rest, inside, after, hsuffix, hinside, (Option.some.inj h).symm⟩
  · simp at h

theorem call?_eq_some (h : call? line = some st) :
    ∃ cs name rest inside after, cs <:+ line ∧ word? cs = some (name, rest) ∧
      enclosed? rest = some (inside, after) ∧
      st = .simple (String.ofList name ++ "(" ++ String.ofList inside ++ ");") := by
  have hinvocation : ∃ cs, cs <:+ line ∧ invocation? cs = some st := by
    rcases Option.or_eq_some_iff.1 h with hcall | ⟨-, hplain⟩
    · obtain ⟨cs, hcs, hst⟩ := Option.bind_eq_some_iff.1 hcall
      exact ⟨cs, afterLeading?_suffix hcs, hst⟩
    · exact ⟨line, List.suffix_refl line, hplain⟩
  obtain ⟨cs, hcs, h⟩ := hinvocation
  simp only [invocation?, Option.bind_eq_bind, Option.bind_eq_some_iff, Prod.exists] at h
  obtain ⟨name, rest, hname, inside, after, hinside, h⟩ := h
  split at h
  · exact ⟨cs, name, rest, inside, after, hcs, hname, hinside, (Option.some.inj h).symm⟩
  · simp at h

theorem return?_eq_some (h : return? line = some st) :
    ∃ value, value <:+ line ∧
      st = .simple ("return " ++ String.ofList (withoutSemicolon (trim value)) ++ ";") := by
  simp only [return?, Option.bind_eq_bind, Option.bind_eq_some_iff] at h
  obtain ⟨value, hvalue, h⟩ := h
  split at h
  · simp at h
  · exact ⟨value, afterLeading?_suffix hvalue, (Option.some.inj h).symm⟩

end EnglishPages.Script.Statement
