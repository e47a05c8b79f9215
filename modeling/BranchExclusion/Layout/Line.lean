import BranchExclusion.Text.Basic

/-!
# Lines of laid out source

* `Line`: a line without its end;
* `indentation`: the white space before a line of some depth;
* `dropIndent`: a line without up to so many blanks and tabs at its start;
* `reindent`: source text laid out at a depth, its later lines moved with the first.
-/

namespace BranchExclusion.Layout

/-- A line of text, without its end. -/
abbrev Line := List Char

/-- `base` followed by `depth` times `unit`. -/
def indentation (base unit : Line) : Nat → Line
  | 0 => base
  | depth + 1 => indentation base unit depth ++ unit

theorem forall_mem_indentation {P : Char → Prop} {base unit : Line} (hbase : ∀ c ∈ base, P c)
    (hunit : ∀ c ∈ unit, P c) (depth : Nat) : ∀ c ∈ indentation base unit depth, P c := by
  induction depth with
  | zero => exact hbase
  | succ depth ih => exact fun c hc => (List.mem_append.1 hc).elim (ih c) (hunit c)

/-- The line without up to `columns` blanks and tabs at its start. -/
def dropIndent : Nat → Line → Line
  | 0, line => line
  | _ + 1, [] => []
  | columns + 1, c :: line => if Text.isIndent c then dropIndent columns line else c :: line

/-- A line after the first: empty when it holds only white space, else moved to the left by up to
`columns` and then indented. -/
def continuation (indent : Line) (columns : Nat) (line : Line) : Line :=
  match Text.trimEnd line with
  | [] => []
  | trimmed => indent ++ dropIndent columns trimmed

/-- The lines of a source text that started at column `columns`, with `lead` before the first and
without white space at their ends. A text without lines gives one line. -/
def reindent (indent lead : Line) (columns : Nat) (text : List Char) : List Line :=
  match Text.lines text with
  | [] => [indent ++ lead]
  | first :: rest =>
    (indent ++ (lead ++ Text.trimEnd first)) :: rest.map (continuation indent columns)

@[simp] theorem dropIndent_nil (columns : Nat) : dropIndent columns [] = [] := by
  cases columns <;> rfl

end BranchExclusion.Layout
