import BranchExclusion.Chain.Basic

/-!
# Flags and assertions

Each member of a chain gets a flag that is raised when its branch runs.

* `FlagStyle`: how flags are named and typed;
* `FlagStyle.declaration`, `FlagStyle.raised`, `FlagStyle.exclusion`: the three kinds of statement
  that instrumentation adds;
* `Expr.eval`: the value of an expression of flags.
-/

namespace BranchExclusion

/-- How flags are written. -/
structure FlagStyle where
  /-- What stands before the line number in a flag's name. -/
  flagPrefix : String
  /-- The type with which flags are declared. -/
  flagType : String
  deriving DecidableEq, Repr

namespace FlagStyle

/-- The flags `branch7` and so on, of type `boolean`. -/
def standard : FlagStyle := ⟨"branch", "boolean"⟩

/-- The name of a member's flag. -/
def flagName (style : FlagStyle) (m : Member) : String := style.flagPrefix ++ toString m.line

/-- The flag is declared and not yet raised. -/
def declaration (style : FlagStyle) (m : Member) : Statement :=
  .declaration style.flagType (style.flagName m) (some (.bool false))

/-- The flag is raised. -/
def raised (style : FlagStyle) (m : Member) : Statement :=
  .assignment (style.flagName m) (.bool true)

/-- Exactly one of the two flags is raised. -/
def exclusion (style : FlagStyle) (first second : Member) : Statement :=
  .assertion (.xor (.name (style.flagName first)) (.name (style.flagName second)))

end FlagStyle

/-- The value of an expression, when `value` gives that of each name; none for source text, whose
meaning is not known here. -/
def Expr.eval (value : String → Bool) : Expr → Option Bool
  | .source _ => none
  | .name text => some (value text)
  | .bool b => some b
  | .xor lhs rhs => do return Bool.xor (← lhs.eval value) (← rhs.eval value)

@[simp] theorem Expr.eval_name (value : String → Bool) (text : String) :
    (Expr.name text).eval value = some (value text) := rfl

@[simp] theorem Expr.eval_bool (value : String → Bool) (b : Bool) :
    (Expr.bool b).eval value = some b := rfl

end BranchExclusion
