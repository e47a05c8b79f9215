/-!
# Exit policy

A conditional whose true branch directly leaves the block never joins a chain. The policy says what
it does to the chain being built.

* `ExitPolicy`: the two policies;
* `ExitPolicy.name`, `ExitPolicy.ofName?`: the written form, in exact case;
* `ExitPolicy.ofText`: the same for any case of the ASCII letters.
-/

namespace BranchExclusion

/-- What an exiting conditional does to the open chain. -/
inductive ExitPolicy
  /-- It ends the chain like any other statement, and its ladder is not followed. -/
  | barrier
  /-- It is passed over: the chain stays open, and its ladder is followed. -/
  | transparent
  deriving DecidableEq, Repr, Inhabited

/-- A text that names no policy, in lower case. -/
structure UnknownPolicy where
  text : String
  deriving DecidableEq, Repr

namespace UnknownPolicy

/-- The wording of the error. -/
def message (e : UnknownPolicy) : String :=
  "Unknown exit policy '" ++ e.text ++ "'. Valid policies: barrier, transparent"

end UnknownPolicy

namespace ExitPolicy

/-- The written form. -/
def name : ExitPolicy → String
  | barrier => "barrier"
  | transparent => "transparent"

/-- The policy of that name, in exact case. -/
def ofName? (text : String) : Option ExitPolicy :=
  if text = "barrier" then some barrier
  else if text = "transparent" then some transparent
  else none

/-- The policy of that name, in any case of the ASCII letters. -/
def ofText (text : String) : Except UnknownPolicy ExitPolicy :=
  let lower := String.ofList (text.toList.map Char.toLower)
  match ofName? lower with
  | some policy => .ok policy
  | none => .error ⟨lower⟩

@[simp] theorem ofName?_name (policy : ExitPolicy) : ofName? policy.name = some policy := by
  cases policy <;> simp [ofName?, name]

theorem ofName?_eq_some {text : String} {policy : ExitPolicy} :
    ofName? text = some policy ↔ text = policy.name := by
  constructor
  · intro h
    unfold ofName? at h
    split at h
    · cases h; assumption
    · split at h
      · cases h; assumption
      · cases h
  · rintro rfl; exact ofName?_name policy

end ExitPolicy

end BranchExclusion
