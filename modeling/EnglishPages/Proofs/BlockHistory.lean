import EnglishPages.Script.Block
import EnglishPages.Text.Lines

/-!
Runs of operations on open blocks, beside their history. A history lists the openings and closings
of single blocks; what is open is what it opens and does not close, and an operation is described by
what it adds to the history, without a stack. The stack holds the blocks that the history leaves
open, and the lines written are those of the events, one each, except that a block which is replaced
by another has no closing line of its own.

The invariant is `Leaves`: a history consists of well nested parts, with the openings of the open
blocks between them, and every operation works on the last part.
-/

namespace EnglishPages.Script

open Text

inductive BlockOperation where
  | opening (k : BlockKind) (header : String)
  | chain (k : BlockKind) (header : String)
  | closeInnermost
  | closeWhile (p : BlockKind → Bool)
  | closeAll

namespace BlockOperation

def apply (s : BlockStack) : BlockOperation → BlockStack × List String
  | opening k header => s.opening k header
  | chain k header => s.chain k header
  | closeInnermost => s.closeInnermost
  | closeWhile p => s.closeWhile p
  | closeAll => s.closeAll

def onlyCloses : BlockOperation → Bool
  | opening _ _ => false
  | chain _ _ => false
  | closeInnermost => true
  | closeWhile _ => true
  | closeAll => true

/-- The header of a chained block starts with the closing line of the block that it replaces. -/
def Fits (s : BlockStack) : BlockOperation → Prop
  | chain _ header => ∀ k ∈ s.innermost?, k.closer.toList <+: header.toList
  | _ => True

def AllFit (s : BlockStack) : List BlockOperation → Prop
  | [] => True
  | op :: ops => op.Fits s ∧ AllFit (op.apply s).1 ops

end BlockOperation

structure BlockWriter where
  blocks : BlockStack
  lines : List String

namespace BlockWriter

def start : BlockWriter := ⟨.empty, []⟩

def text (w : BlockWriter) : String :=
  terminated w.lines

def perform (w : BlockWriter) (op : BlockOperation) : BlockWriter :=
  ⟨(op.apply w.blocks).1, w.lines ++ (op.apply w.blocks).2⟩

def performAll (w : BlockWriter) (ops : List BlockOperation) : BlockWriter :=
  ops.foldl perform w

end BlockWriter

/-- What happens to one block: it is opened, closed by a line of its own, or replaced by the next
block, whose header closes it. -/
inductive BlockEvent where
  | opened (k : BlockKind) (header : String)
  | closed (k : BlockKind)
  | replaced (k : BlockKind)
  deriving DecidableEq, Repr

namespace BlockEvent

def line? : BlockEvent → Option String
  | opened _ header => some header
  | closed k => some k.closer
  | replaced _ => none

def ended? : BlockEvent → Option BlockKind
  | opened _ _ => none
  | closed k => some k
  | replaced k => some k

def openings (es : List BlockEvent) : Nat :=
  es.countP (·.ended?.isNone)

def closings (es : List BlockEvent) : Nat :=
  es.countP (·.ended?.isSome)

/-- Openings and closings paired from the end, whatever their kinds: the number of closings that are
left, and the kinds of the blocks whose openings are left, the last one first. -/
def unpaired : List BlockEvent → Nat × List BlockKind
  | [] => (0, [])
  | opened k _ :: es =>
      match unpaired es with
      | (0, ks) => (0, ks ++ [k])
      | (n + 1, ks) => (n, ks)
  | closed _ :: es => ((unpaired es).1 + 1, (unpaired es).2)
  | replaced _ :: es => ((unpaired es).1 + 1, (unpaired es).2)

def stillOpen (es : List BlockEvent) : List BlockKind :=
  (unpaired es).2

/-- Every block that is opened is closed as the kind that it is, and before the block around it. -/
inductive WellNested : List BlockEvent → Prop
  | nil : WellNested []
  | block {k : BlockKind} {close : BlockEvent} {inside behind : List BlockEvent} (header : String)
      (hclose : close.ended? = some k) (hinside : WellNested inside) (hbehind : WellNested behind) :
      WellNested (opened k header :: (inside ++ close :: behind))

end BlockEvent

def BlockOperation.events (ks : List BlockKind) : BlockOperation → List BlockEvent
  | opening k header => [.opened k header]
  | chain k header => (ks.head?.map BlockEvent.replaced).toList ++ [.opened k header]
  | closeInnermost => (ks.head?.map BlockEvent.closed).toList
  | closeWhile p => (ks.takeWhile p).map .closed
  | closeAll => ks.map .closed

namespace BlockEvent

def extended (es : List BlockEvent) (op : BlockOperation) : List BlockEvent :=
  es ++ op.events (stillOpen es)

def history (ops : List BlockOperation) : List BlockEvent :=
  ops.foldl extended []

variable {es fs : List BlockEvent} {k : BlockKind} {ks js : List BlockKind} {close : BlockEvent}

theorem WellNested.append (hes : WellNested es) (hfs : WellNested fs) : WellNested (es ++ fs) := by
  induction hes with
  | nil => exact hfs
  | block header hclose hinside hbehind _ ih =>
      have hblock := WellNested.block header hclose hinside ih
      simpa only [List.cons_append, List.append_assoc] using hblock

theorem unpaired_of_ended (h : close.ended? = some k) (es : List BlockEvent) :
    unpaired (close :: es) = ((unpaired es).1 + 1, (unpaired es).2) := by
  cases close with
  | opened k header => cases h
  | closed k => rfl
  | replaced k => rfl

theorem unpaired_append (h : WellNested es) (fs : List BlockEvent) :
    unpaired (es ++ fs) = unpaired fs := by
  induction h generalizing fs with
  | nil => rfl
  | @block k close inside behind header hclose _ _ ihinside ihbehind =>
      have hrest : unpaired ((inside ++ close :: behind) ++ fs) =
          ((unpaired fs).1 + 1, (unpaired fs).2) := by
        rw [List.append_assoc, ihinside, List.cons_append, unpaired_of_ended hclose, ihbehind]
      rw [List.cons_append, unpaired, hrest]

@[simp] theorem openings_append (es fs : List BlockEvent) :
    openings (es ++ fs) = openings es + openings fs :=
  List.countP_append

@[simp] theorem closings_append (es fs : List BlockEvent) :
    closings (es ++ fs) = closings es + closings fs :=
  List.countP_append

@[simp] theorem openings_opened (k : BlockKind) (header : String) (es : List BlockEvent) :
    openings (opened k header :: es) = openings es + 1 :=
  List.countP_cons_of_pos rfl

@[simp] theorem closings_opened (k : BlockKind) (header : String) (es : List BlockEvent) :
    closings (opened k header :: es) = closings es :=
  List.countP_cons_of_neg (by simp [ended?])

theorem openings_of_ended (h : close.ended? = some k) (es : List BlockEvent) :
    openings (close :: es) = openings es :=
  List.countP_cons_of_neg (by simp [h])

theorem closings_of_ended (h : close.ended? = some k) (es : List BlockEvent) :
    closings (close :: es) = closings es + 1 :=
  List.countP_cons_of_pos (by simp [h])

theorem openings_of_wellNested (h : WellNested es) : openings es = closings es := by
  induction h with
  | nil => rfl
  | @block k close inside behind header hclose _ _ ihinside ihbehind =>
      simp only [openings_opened, closings_opened, openings_append, closings_append,
        openings_of_ended hclose, closings_of_ended hclose]
      omega

/-- `Leaves es ks`: the history leaves the blocks `ks` open, innermost first. -/
inductive Leaves : List BlockEvent → List BlockKind → Prop
  | nested {es : List BlockEvent} (h : WellNested es) : Leaves es []
  | inside {before es : List BlockEvent} {k : BlockKind} {ks : List BlockKind} (header : String)
      (hbefore : Leaves before ks) (h : WellNested es) :
      Leaves (before ++ opened k header :: es) (k :: ks)

namespace Leaves

theorem wellNested (h : Leaves es []) : WellNested es := by
  cases h with
  | nested h => exact h

theorem append (h : Leaves es ks) (hfs : WellNested fs) : Leaves (es ++ fs) ks := by
  cases h with
  | nested hes => exact .nested (hes.append hfs)
  | inside header hbefore hes =>
      rw [List.append_assoc]
      exact .inside header hbefore (hes.append hfs)

theorem opening (h : Leaves es ks) (k : BlockKind) (header : String) :
    Leaves (es ++ [opened k header]) (k :: ks) :=
  .inside header h .nil

theorem closing (h : Leaves es (k :: ks)) (hclose : close.ended? = some k) :
    Leaves (es ++ [close]) ks := by
  cases h with
  | @inside before es _ _ header hbefore hes =>
      have hblock : WellNested (opened k header :: (es ++ [close])) :=
        .block header hclose hes .nil
      rw [List.append_assoc]
      exact hbefore.append hblock

theorem closingMany {closed : List BlockKind} (h : Leaves es (closed ++ ks)) :
    Leaves (es ++ closed.map .closed) ks := by
  induction closed generalizing es with
  | nil => simpa using h
  | cons j closed ih =>
      have hfirst : Leaves (es ++ [.closed j]) (closed ++ ks) := h.closing rfl
      simpa only [List.map_cons, List.append_assoc, List.singleton_append] using ih hfirst

theorem unpaired_append (h : Leaves es ks) (hfs : unpaired fs = (0, js)) :
    unpaired (es ++ fs) = (0, js ++ ks) := by
  induction h generalizing fs js with
  | nested hes => rw [BlockEvent.unpaired_append hes, hfs, List.append_nil]
  | @inside before es k ks header _ hes ih =>
      have hopened : unpaired (opened k header :: (es ++ fs)) = (0, js ++ [k]) := by
        rw [unpaired, BlockEvent.unpaired_append hes, hfs]
      rw [List.append_assoc, List.cons_append, ih hopened, List.append_assoc]
      rfl

theorem stillOpen_eq (h : Leaves es ks) : stillOpen es = ks := by
  have hall : unpaired (es ++ []) = (0, [] ++ ks) := h.unpaired_append rfl
  rw [List.append_nil] at hall
  rw [stillOpen, hall]
  rfl

theorem openings_eq (h : Leaves es ks) : openings es = closings es + ks.length := by
  induction h with
  | nested hes => exact openings_of_wellNested hes
  | @inside before es k ks header _ hes ih =>
      have hcount := openings_of_wellNested hes
      simp only [openings_append, closings_append, openings_opened, closings_opened,
        List.length_cons]
      omega

end Leaves

/-- Every block that is replaced is followed by a block whose header starts with its closing
line. -/
def ReplacedByHeaders (es : List BlockEvent) : Prop :=
  ∀ before k behind, es = before ++ replaced k :: behind →
    ∃ j header later, behind = opened j header :: later ∧ k.closer.toList <+: header.toList

theorem ReplacedByHeaders.append (hes : ReplacedByHeaders es) (hfs : ReplacedByHeaders fs) :
    ReplacedByHeaders (es ++ fs) := by
  intro before k behind h
  rcases List.append_eq_append_iff.1 h with ⟨more, rfl, hmore⟩ | ⟨more, hmore, hbehind⟩
  · exact hfs more k behind hmore
  · cases more with
    | nil => exact hfs [] k behind hbehind.symm
    | cons e more =>
        obtain ⟨rfl, rfl⟩ := List.cons.inj hbehind
        obtain ⟨j, header, later, rfl, hstarts⟩ := hes before k more hmore
        exact ⟨j, header, later ++ fs, rfl, hstarts⟩

theorem replacedByHeaders_of_not_mem (h : ∀ k, replaced k ∉ es) : ReplacedByHeaders es := by
  intro before k behind hes
  exact absurd (hes ▸ List.mem_append_right before List.mem_cons_self) (h k)

end BlockEvent

namespace BlockOperation

open BlockEvent

theorem replacedByHeaders_events {s : BlockStack} {op : BlockOperation} (h : op.Fits s) :
    ReplacedByHeaders (op.events s.kinds) := by
  cases op with
  | opening k header => exact replacedByHeaders_of_not_mem (by simp [events])
  | closeInnermost => exact replacedByHeaders_of_not_mem (by simp [events])
  | closeWhile p => exact replacedByHeaders_of_not_mem (by simp [events])
  | closeAll => exact replacedByHeaders_of_not_mem (by simp [events])
  | chain k header =>
      obtain ⟨ks⟩ := s
      cases ks with
      | nil => exact replacedByHeaders_of_not_mem (by simp [events])
      | cons j ks =>
          intro before i behind hevents
          cases before with
          | nil =>
              obtain ⟨hj, rfl⟩ := List.cons.inj hevents
              obtain rfl := BlockEvent.replaced.inj hj
              exact ⟨k, header, [], rfl, h j rfl⟩
          | cons e before =>
              have htail : [opened k header] = before ++ replaced i :: behind :=
                (List.cons.inj hevents).2
              have hmem : replaced i ∈ [opened k header] :=
                htail ▸ List.mem_append_right before List.mem_cons_self
              simp at hmem

end BlockOperation

namespace BlockWriter

open BlockEvent BlockOperation

structure Records (w : BlockWriter) (es : List BlockEvent) : Prop where
  leaves : Leaves es w.blocks.kinds
  lines : w.lines = es.filterMap line?

variable {w : BlockWriter} {es : List BlockEvent}

theorem filterMap_line?_closed (ks : List BlockKind) :
    (ks.map BlockEvent.closed).filterMap line? = ks.map BlockKind.closer := by
  induction ks with
  | nil => rfl
  | cons k ks ih => exact congrArg (k.closer :: ·) ih

theorem Records.perform (h : Records w es) (op : BlockOperation) :
    Records (w.perform op) (extended es op) := by
  obtain ⟨⟨ks⟩, ls⟩ := w
  obtain ⟨hleaves, hlines⟩ := h
  have hopen : stillOpen es = ks := hleaves.stillOpen_eq
  rw [extended, hopen]
  suffices hboth : Leaves (es ++ op.events ks) (op.apply ⟨ks⟩).1.kinds ∧
      (op.apply ⟨ks⟩).2 = (op.events ks).filterMap line? by
    refine ⟨hboth.1, ?_⟩
    rw [List.filterMap_append, ← hlines, ← hboth.2]
    rfl
  cases op with
  | opening k header => exact ⟨hleaves.opening k header, rfl⟩
  | chain k header =>
      cases ks with
      | nil => exact ⟨hleaves.opening k header, rfl⟩
      | cons j ks =>
          have hreplaced : Leaves (es ++ [.replaced j]) ks := hleaves.closing rfl
          have hopened := hreplaced.opening k header
          rw [List.append_assoc] at hopened
          exact ⟨hopened, rfl⟩
  | closeInnermost =>
      cases ks with
      | nil => exact ⟨hleaves.append .nil, rfl⟩
      | cons j ks => exact ⟨hleaves.closing rfl, rfl⟩
  | closeWhile p =>
      rw [← List.takeWhile_append_dropWhile (p := p) (l := ks)] at hleaves
      exact ⟨hleaves.closingMany, (filterMap_line?_closed _).symm⟩
  | closeAll =>
      have hall : Leaves es (ks ++ []) := by rwa [List.append_nil]
      exact ⟨hall.closingMany, (filterMap_line?_closed _).symm⟩

theorem Records.performAll (h : Records w es) (ops : List BlockOperation) :
    Records (w.performAll ops) (ops.foldl extended es) := by
  induction ops generalizing w es with
  | nil => exact h
  | cons op ops ih => exact ih (h.perform op)

theorem records_history (ops : List BlockOperation) :
    Records (start.performAll ops) (history ops) :=
  Records.performAll ⟨.nested .nil, rfl⟩ ops

theorem perform_of_onlyCloses {op : BlockOperation} (hop : op.onlyCloses = true)
    (hempty : w.blocks.depth = 0) : w.perform op = w := by
  obtain ⟨⟨ks⟩, ls⟩ := w
  obtain rfl : ks = [] := List.eq_nil_of_length_eq_zero hempty
  cases op with
  | opening k header => cases hop
  | chain k header => cases hop
  | closeInnermost | closeWhile p | closeAll => exact congrArg (BlockWriter.mk _) (List.append_nil ls)

theorem replacedByHeaders_foldl {ops : List BlockOperation} (h : Records w es)
    (hes : ReplacedByHeaders es) (hops : AllFit w.blocks ops) :
    ReplacedByHeaders (ops.foldl extended es) := by
  induction ops generalizing w es with
  | nil => exact hes
  | cons op ops ih =>
      refine ih (h.perform op) ?_ hops.2
      have hevents := replacedByHeaders_events hops.1
      rw [← h.leaves.stillOpen_eq] at hevents
      exact hes.append hevents

theorem performAll_append (w : BlockWriter) (ops more : List BlockOperation) :
    w.performAll (ops ++ more) = (w.performAll ops).performAll more :=
  List.foldl_append

/-- Any operations, and in the end everything closed: the history is well nested. On the way the text
is the lines of the events, the stack shows just the blocks that are opened and not yet closed, and
closing with none of them left does nothing. -/
theorem wellNested_history (ops : List BlockOperation) (h : AllFit .empty ops) :
    WellNested (history (ops ++ [.closeAll])) ∧
    ReplacedByHeaders (history (ops ++ [.closeAll])) ∧
    ∀ before, before <+: ops ++ [.closeAll] →
      (start.performAll before).text = terminated ((history before).filterMap line?) ∧
      openings (history before) =
        closings (history before) + (start.performAll before).blocks.depth ∧
      (start.performAll before).blocks.innermost? = (stillOpen (history before)).head? ∧
      (∀ k, (start.performAll before).blocks.contains k = true ↔ k ∈ stillOpen (history before)) ∧
      ∀ op, op.onlyCloses = true → (start.performAll before).blocks.depth = 0 →
        start.performAll (before ++ [op]) = start.performAll before := by
  refine ⟨?_, ?_, fun before _ => ?_⟩
  · have hleaves := (records_history (ops ++ [.closeAll])).leaves
    rw [performAll_append] at hleaves
    exact hleaves.wellNested
  · have hnone : ReplacedByHeaders (history []) :=
      replacedByHeaders_of_not_mem fun _ => List.not_mem_nil
    have hops := replacedByHeaders_foldl (records_history []) hnone h
    have hclosings : ReplacedByHeaders (BlockOperation.closeAll.events (stillOpen (history ops))) :=
      replacedByHeaders_of_not_mem (by simp [events])
    rw [history, List.foldl_append]
    exact hops.append hclosings
  · have hrecords := records_history before
    have hopen := hrecords.leaves.stillOpen_eq
    refine ⟨?_, hrecords.leaves.openings_eq, ?_, fun k => ?_, fun op hop hempty => ?_⟩
    · rw [text, hrecords.lines]
    · rw [hopen]
      rfl
    · rw [hopen]
      exact List.contains_iff_mem
    · rw [performAll_append]
      exact perform_of_onlyCloses hop hempty

/-- A conditional replaced by its alternative, a handler closed inside it, one closing too many, and
a block chained where none is open. -/
theorem wellNested_history_alternative :
    let ops : List BlockOperation :=
      [.opening .conditional "if (a) \x7b", .chain .alternative "\x7d else \x7b",
        .opening .event "b.on(() => \x7b", .closeWhile (· == .event), .closeInnermost,
        .closeInnermost, .chain .loop "while (c) \x7b"]
    AllFit .empty ops ∧ WellNested (history (ops ++ [.closeAll])) ∧
      (history (ops ++ [.closeAll])).map ended? =
        [none, some .conditional, none, none, some .event, some .alternative, none, some .loop] ∧
      (start.performAll (ops ++ [.closeAll])).text =
        "if (a) \x7b\n\x7d else \x7b\nb.on(() => \x7b\n\x7d);\n\x7d\nwhile (c) \x7b\n\x7d\n" := by
  intro ops
  have hchain : ∀ k ∈ some BlockKind.conditional,
      k.closer.toList <+: "\x7d else \x7b".toList := by
    rintro _ ⟨⟩
    decide
  have hempty : ∀ k ∈ (none : Option BlockKind), k.closer.toList <+: "while (c) \x7b".toList := by
    simp
  have hfit : AllFit .empty ops :=
    ⟨trivial, hchain, trivial, trivial, trivial, trivial, hempty, trivial⟩
  obtain ⟨hnested, -, hall⟩ := wellNested_history ops hfit
  refine ⟨hfit, hnested, by decide, ?_⟩
  rw [(hall _ List.prefix_rfl).1]
  decide

end BlockWriter

end EnglishPages.Script
