/-!
# Places in a source text

* `Span`: a stretch of source by lines and columns, as shown to a reader;
* `ByteRange`: a stretch of source by byte offsets, as used for cutting and replacing.
-/

namespace BranchExclusion

/-- A stretch of source. Lines count from 1; columns are byte offsets in their line, from 0. -/
structure Span where
  startLine : Nat
  startCol : Nat
  endLine : Nat
  endCol : Nat
  deriving DecidableEq, Repr, Inhabited

namespace Span

/-- The span of what no source wrote. -/
def zero : Span := ⟨0, 0, 0, 0⟩

/-- No source line has the number 0. -/
def isSynthetic (s : Span) : Bool := s.startLine == 0

/-- `line:column-line:column`. -/
def display (s : Span) : String :=
  toString s.startLine ++ ":" ++ toString s.startCol ++ "-" ++
    toString s.endLine ++ ":" ++ toString s.endCol

@[simp] theorem isSynthetic_zero : zero.isSynthetic = true := rfl

end Span

/-- The bytes from `start` up to, not including, `stop`. -/
structure ByteRange where
  start : Nat
  stop : Nat
  deriving DecidableEq, Repr, Inhabited

namespace ByteRange

/-- The range that holds no byte, of what no source wrote. -/
def zero : ByteRange := ⟨0, 0⟩

/-- A range that ends where it starts, or before, holds nothing. -/
def isEmpty (r : ByteRange) : Bool := !decide (r.start < r.stop)

/-- The number of bytes. -/
def length (r : ByteRange) : Nat := r.stop - r.start

/-- Every byte of `inner` is one of `outer`, ends included. -/
def contains (outer inner : ByteRange) : Bool :=
  decide (outer.start ≤ inner.start) && decide (inner.stop ≤ outer.stop)

/-- The same range, counted from `origin`. -/
def relativeTo (r : ByteRange) (origin : Nat) : ByteRange :=
  ⟨r.start - origin, r.stop - origin⟩

theorem contains_iff {outer inner : ByteRange} :
    outer.contains inner = true ↔ outer.start ≤ inner.start ∧ inner.stop ≤ outer.stop := by
  simp [contains]

theorem isEmpty_iff {r : ByteRange} : r.isEmpty = true ↔ r.stop ≤ r.start := by
  simp [isEmpty]

end ByteRange

end BranchExclusion
