import BranchExclusion.Transform.Log

/-!
# Instrumenting the methods of a file

* `Detection`: a file with all its conditionals made normal and the chains found in it;
* `SourceUnit.detect`: the chains of every method;
* `Instrumentation`: a file with its chains instrumented;
* `Detection.instrument`: every method with chains instrumented. A method with a sealed block keeps its
  body, and the others are still instrumented.
-/

namespace BranchExclusion

/-- A file after its chains were looked for. -/
structure Detection where
  /-- The file with all its conditionals made normal. -/
  unit : SourceUnit
  registry : Registry
  log : List LogLine
  deriving Repr

namespace Detection

/-- The file with one more method searched, where `index` is the number of methods before. -/
def step (s : Scanner) (d : Detection) (index : Nat) (m : Method) :
    Except Body.Fault Detection := do
  let (m, visits) ← m.discover s index
  let found := (visits.flatMap Visit.found).length
  let summary : List LogLine :=
    if found = 0 then [] else [⟨.debug, m.qualifiedName ++ ": " ++ toString found ++ " chains"⟩]
  return ⟨{ d.unit with methods := d.unit.methods ++ [m] }, d.registry.add visits,
    d.log ++ visits.flatMap Visit.log ++ summary⟩

end Detection

/-- The chains of every method, one method after the other. -/
def SourceUnit.detect (u : SourceUnit) (s : Scanner) : Except Body.Fault Detection :=
  u.methods.zipIdx.foldlM (fun d p => d.step s p.2 p.1) ⟨{ u with methods := [] }, .empty, []⟩

/-- A file after its chains were instrumented. -/
structure Instrumentation where
  unit : SourceUnit
  registry : Registry
  /-- The indices of the methods whose bodies have changed. -/
  instrumented : List Nat
  totals : Outcome
  failures : List SealedBlock
  log : List LogLine
  deriving Repr

namespace Instrumentation

/-- Some body has changed. -/
def modified (i : Instrumentation) : Bool := !i.instrumented.isEmpty

/-- The file with the method `index` instrumented, or left as it is when a block is sealed. -/
def step (style : FlagStyle) (i : Instrumentation) (index : Nat) :
    Except Body.Fault Instrumentation :=
  match i.unit.methods[index]? with
  | none => .ok i
  | some m =>
    match m.body.instrument style (i.registry.forMethod index) m.qualifiedName with
    | .ok (body, outcome) =>
      .ok { i with
        unit := { i.unit with methods := i.unit.methods.set index { m with body := body } }
        instrumented := if outcome.modified then i.instrumented ++ [index] else i.instrumented
        totals := i.totals.merge outcome }
    | .error (.sealedBlock e) =>
      .ok { i with
        failures := i.failures ++ [e]
        log := i.log ++ [⟨.warning, i.unit.path ++ ": left unchanged: " ++ e.message⟩] }
    | .error (.fault f) => .error f

end Instrumentation

/-- Every method with chains instrumented, in the order of the file. -/
def Detection.instrument (d : Detection) (style : FlagStyle) : Except Body.Fault Instrumentation :=
  d.registry.methods.foldlM (Instrumentation.step style) ⟨d.unit, d.registry, [], .zero, [], d.log⟩

end BranchExclusion
