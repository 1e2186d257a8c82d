import GoSplit.SourceFile

/-!
Replacing spans of a text. Edits are taken by their start; each must lie within the
text on character boundaries and must not start before the previous one has ended.
What lies between them is kept.
-/

namespace GoSplit

structure Edit where
  span : Span
  replacement : Text
  deriving DecidableEq, Repr

inductive EditError where
  | overlapping (start : Nat)
  | outOfBounds (span : Span) (size : Nat)
  deriving DecidableEq, Repr

def EditError.message : EditError → String
  | .overlapping start => s!"overlapping edits at byte {start}"
  | .outOfBounds span size =>
    s!"edit {span.start}..{span.stop} outside source of {size} bytes"

namespace Edit

/-- The span has its ends in order, within the text and between characters. -/
def fits (src : Text) (span : Span) : Bool :=
  span.start ≤ span.stop && Text.isBoundary span.start src && Text.isBoundary span.stop src

/-- Applies edits in order of their start to `rest`, the text from byte `cursor` on. -/
def applyFrom (src : Text) (cursor : Nat) (rest : Text) : List Edit → Except EditError Text
  | [] => .ok rest
  | edit :: edits =>
    if !fits src edit.span then .error (.outOfBounds edit.span src.byteLength)
    else if edit.span.start < cursor then .error (.overlapping edit.span.start)
    else
      match Text.splitAtByte (edit.span.start - cursor) rest with
      | none => .error (.outOfBounds edit.span src.byteLength)
      | some (kept, tail) =>
        match Text.splitAtByte edit.span.size tail with
        | none => .error (.outOfBounds edit.span src.byteLength)
        | some (_, after) =>
          (applyFrom src edit.span.stop after edits).map fun t => kept ++ edit.replacement ++ t

def applyAll (src : Text) (edits : List Edit) : Except EditError Text :=
  applyFrom src 0 src (edits.mergeSort fun a b => a.span.start ≤ b.span.start)

end Edit

end GoSplit
