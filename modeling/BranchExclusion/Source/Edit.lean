import BranchExclusion.Source.Span
import BranchExclusion.Text.Offset

/-!
# Edits of a source text

* `Edit`: a replacement text for a range of bytes;
* `applyEdits`: edits applied from the end of the text backwards, each of which has to end at or
  before the start of the one before it;
* `splice`: the same for edits in any order.
-/

namespace BranchExclusion

/-- A replacement for the bytes of a range. -/
structure Edit where
  range : ByteRange
  text : String
  deriving DecidableEq, Repr, Inhabited

/-- Why an edit cannot be applied. -/
inductive EditError
  | overlap (range : ByteRange)
  | offBoundary (range : ByteRange)
  deriving DecidableEq, Repr

namespace EditError

/-- The wording of the error. -/
def message : EditError → String
  | overlap r => "body range " ++ toString r.start ++ ".." ++ toString r.stop ++
      " overlaps another edit or runs past the source"
  | offBoundary r => "body range " ++ toString r.start ++ ".." ++ toString r.stop ++
      " is not on a character boundary"

end EditError

/-- `output` with the edits applied in the order given, where no edit may reach beyond `limit`, nor
a later one beyond the start of an earlier one. Offsets are those of `source`, which agrees with
`output` up to `limit`. -/
def applyEdits (source : List Char) :
    (output : List Char) → (limit : Nat) → List Edit → Except EditError (List Char)
  | output, _, [] => .ok output
  | output, limit, e :: rest =>
    if e.range.stop < e.range.start || limit < e.range.stop then .error (.overlap e.range)
    else if !Text.isBoundary source e.range.start || !Text.isBoundary source e.range.stop then
      .error (.offBoundary e.range)
    else applyEdits source (Text.replace output e.range.start e.range.stop e.text.toList)
      e.range.start rest

/-- The edits from the last start to the first; those with equal starts keep their order. -/
def descending (edits : List Edit) : List Edit :=
  edits.mergeSort fun a b => decide (b.range.start ≤ a.range.start)

/-- The source with every edit applied and every other byte kept. -/
def splice (source : List Char) (edits : List Edit) : Except EditError (List Char) :=
  applyEdits source source (Text.byteLength source) (descending edits)

@[simp] theorem applyEdits_nil (source output : List Char) (limit : Nat) :
    applyEdits source output limit [] = .ok output := rfl

end BranchExclusion
