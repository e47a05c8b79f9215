import BranchExclusion.Body.Basic

/-!
# Source files and their methods

* `Method`: one method-like body of a file, with its place in the source;
* `SourceFault`: a syntax error of a file;
* `SourceUnit`: a file with its methods and its syntax errors.
-/

namespace BranchExclusion

/-- A method, constructor, initializer or lambda with a body. -/
structure Method where
  /-- The enclosing types, joined by dots. -/
  owner : String
  name : String
  span : Span
  /-- The bytes of the body, from its opening to its closing brace. -/
  bodyRange : ByteRange
  /-- The white space that starts the line of the opening brace. -/
  indent : String
  body : Body
  deriving DecidableEq, Repr, Inhabited

namespace Method

/-- `owner.name`, or the name alone at top level. -/
def qualifiedName (m : Method) : String :=
  if m.owner.isEmpty then m.name else m.owner ++ "." ++ m.name

end Method

/-- A syntax error. -/
structure SourceFault where
  message : String
  span : Span
  deriving DecidableEq, Repr, Inhabited

/-- A source file: outside the bodies of its methods it is never looked at again. -/
structure SourceUnit where
  path : String
  source : String
  /-- In the order in which the bodies start. -/
  methods : List Method
  faults : List SourceFault
  deriving DecidableEq, Repr, Inhabited

namespace SourceUnit

/-- The first method with that qualified name. -/
def method? (u : SourceUnit) (name : String) : Option Method :=
  u.methods.find? fun m => m.qualifiedName == name

theorem method?_eq_some {u : SourceUnit} {name : String} {m : Method} :
    u.method? name = some m ↔ m.qualifiedName = name ∧
      ∃ before later, u.methods = before ++ m :: later ∧ ∀ m' ∈ before, m'.qualifiedName ≠ name := by
  simp [method?, List.find?_eq_some_iff_append]

end SourceUnit

end BranchExclusion
