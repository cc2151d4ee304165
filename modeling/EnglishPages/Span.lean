import EnglishPages.Json.Value

/-!
Spans: half-open ranges of byte offsets in a source text. A span that comes from a source has its
ends in order; one that is read back from a file is taken as it is.
-/

namespace EnglishPages

/-- From the first byte to one past the last. -/
structure Span where
  start : Nat
  stop : Nat
  deriving DecidableEq, Repr, Inhabited

namespace Span

def empty (offset : Nat) : Span := ⟨offset, offset⟩

def join (a b : Span) : Span := ⟨min a.start b.start, max a.stop b.stop⟩

def length (s : Span) : Nat := s.stop - s.start

def isEmpty (s : Span) : Bool := s.start == s.stop

structure Reversed where
  start : Nat
  stop : Nat
  deriving DecidableEq, Repr

def Reversed.message (e : Reversed) : String :=
  "Span end (" ++ toString e.stop ++ ") < start (" ++ toString e.start ++ ")"

def between (start stop : Nat) : Except Reversed Span :=
  if start ≤ stop then .ok ⟨start, stop⟩ else .error ⟨start, stop⟩

def toJson (s : Span) : Json :=
  .object [("start", .natural s.start), ("end", .natural s.stop)]

def ofJson? (j : Json) : Option Span := do
  let record ← j.record? ["start", "end"]
  let start ← (← record.member? "start").asWord?
  let stop ← (← record.member? "end").asWord?
  return ⟨start, stop⟩

@[simp]
theorem join_self (s : Span) : s.join s = s := by
  simp [join]

theorem join_comm (a b : Span) : a.join b = b.join a := by
  simp [join, Nat.min_comm, Nat.max_comm]

theorem join_assoc (a b c : Span) : (a.join b).join c = a.join (b.join c) := by
  simp [join, Nat.min_assoc, Nat.max_assoc]

end Span

end EnglishPages
