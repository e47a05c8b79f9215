import BranchExclusion.Proofs.Transform.Methods
import BranchExclusion.Proofs.Transform.Layouts

/-!
# The path of a transformed file

The path of a file stands in what is logged and told about it, and nowhere in the new text.

* `FileResult.content`: the new text of a file, with whether it has changed;
* `Instrumentation.unnamed`: an instrumentation without the path of its file and without its log;
* `content_transformText`: files with one text get one new text, whatever their paths.
-/

namespace BranchExclusion

/-- The new text of a file, and whether it has changed. -/
def FileResult.content (r : FileResult) : String × Bool := (r.output, r.modified)

/-- The file without its path. -/
def SourceUnit.unnamed (u : SourceUnit) : SourceUnit := { u with path := "" }

/-- The detection in the file without its path. -/
def Detection.unnamed (d : Detection) : Detection := { d with unit := d.unit.unnamed }

/-- The instrumentation of the file without its path, with nothing logged. -/
def Instrumentation.unnamed (i : Instrumentation) : Instrumentation :=
  { i with unit := i.unit.unnamed, log := [] }

theorem SourceUnit.detect_unnamed (u : SourceUnit) (s : Scanner) :
    u.unnamed.detect s = (u.detect s).map Detection.unnamed := by
  let step (d : Detection) (p : Method × ℕ) : Except Body.Fault Detection := d.step s p.2 p.1
  have hstep : ∀ d p, step d.unnamed p = (step d p).map Detection.unnamed := by
    intro d p
    change d.unnamed.step s p.2 p.1 = (d.step s p.2 p.1).map Detection.unnamed
    unfold Detection.step
    cases p.1.discover s p.2 with
    | error f => rfl
    | ok r => rfl
  exact foldlM_map_state hstep u.methods.zipIdx ⟨{ u with methods := [] }, .empty, []⟩

/-- What becomes of a method depends neither on the path nor on the log so far. -/
theorem Instrumentation.step_unnamed (style : FlagStyle) (i : Instrumentation) (index : ℕ) :
    (i.unnamed.step style index).map unnamed = (i.step style index).map unnamed := by
  have hmethods : i.unnamed.unit.methods = i.unit.methods := rfl
  have hregistry : i.unnamed.registry = i.registry := rfl
  unfold step
  rw [hmethods, hregistry]
  cases i.unit.methods[index]? with
  | none => rfl
  | some m =>
    dsimp only
    cases m.body.instrument style (i.registry.forMethod index) m.qualifiedName with
    | ok r => rfl
    | error e => cases e <;> rfl

theorem Detection.instrument_unnamed (d : Detection) (style : FlagStyle) :
    (d.unnamed.instrument style).map Instrumentation.unnamed =
      (d.instrument style).map Instrumentation.unnamed := by
  -- the log of a step tells the path, so each step is followed by leaving both out
  have hfold : ∀ i : Instrumentation,
      d.registry.methods.foldlM (fun j index => (Instrumentation.step style j index).map
        Instrumentation.unnamed) i.unnamed =
      (d.registry.methods.foldlM (Instrumentation.step style) i).map Instrumentation.unnamed :=
    fun i => foldlM_map_state (fun j index => j.step_unnamed style index) d.registry.methods i
  exact (hfold ⟨d.unnamed.unit, d.registry, [], .zero, [], d.log⟩).symm.trans
    (hfold ⟨d.unit, d.registry, [], .zero, [], d.log⟩)

theorem SourceUnit.instrument_unnamed (u : SourceUnit) (s : Settings) :
    (u.unnamed.instrument s).map Instrumentation.unnamed =
      (u.instrument s).map Instrumentation.unnamed := by
  unfold instrument
  rw [detect_unnamed]
  cases u.detect s.scanner with
  | error f => rfl
  | ok d => exact d.instrument_unnamed s.flagStyle

theorem Layouts.edits_foldl_congr (render : Renderer) (path path' : String) (ms : List Method)
    {l l' : Layouts} (h : l.edits = l'.edits) :
    (ms.foldl (add render path) l).edits = (ms.foldl (add render path') l').edits := by
  induction ms generalizing l l' with
  | nil => exact h
  | cons m rest ih =>
    refine ih ?_
    rw [edits_add, edits_add]
    simp only [apart, call, within, h]

/-- The new text is put together from the source and the bodies alone. -/
theorem Instrumentation.content_finish {i j : Instrumentation} (h : i.unnamed = j.unnamed)
    (unit : String) : (i.finish unit).result.toOption.map FileResult.content =
      (j.finish unit).result.toOption.map FileResult.content := by
  have hsource : i.unit.source = j.unit.source := congrArg (fun i => i.unit.source) h
  have hmethods : i.unit.methods = j.unit.methods := congrArg (fun i => i.unit.methods) h
  have hdone : i.instrumented = j.instrumented := congrArg (fun i => i.instrumented) h
  have hedits : (i.layouts (.standard unit)).edits = (j.layouts (.standard unit)).edits := by
    unfold layouts
    rw [hmethods, hdone]
    exact Layouts.edits_foldl_congr _ _ _ _ rfl
  unfold finish
  dsimp only
  rw [hsource, hedits]
  cases splice j.unit.source.toList (j.layouts (.standard unit)).edits with
  | error e => rfl
  | ok output => rfl

/-- **The new text does not depend on the path.** Files with one text get one new text, or none of
them gets any. -/
theorem content_transformText (s : Settings) (path path' source : String) :
    (transformText s path source).result.toOption.map FileResult.content =
      (transformText s path' source).result.toOption.map FileResult.content := by
  have hunits : ((Java.readUnit path source).instrument s).map Instrumentation.unnamed =
      ((Java.readUnit path' source).instrument s).map Instrumentation.unnamed :=
    ((Java.readUnit path source).instrument_unnamed s).symm.trans
      ((Java.readUnit path' source).instrument_unnamed s)
  unfold transformText
  cases s.validate with
  | error e => rfl
  | ok _ =>
    dsimp only
    cases hi : (Java.readUnit path source).instrument s with
    | error f =>
      cases hj : (Java.readUnit path' source).instrument s with
      | error f' => rfl
      | ok j =>
        rw [hi, hj] at hunits
        cases hunits
    | ok i =>
      cases hj : (Java.readUnit path' source).instrument s with
      | error f' =>
        rw [hi, hj] at hunits
        cases hunits
      | ok j =>
        rw [hi, hj] at hunits
        exact Instrumentation.content_finish (Except.ok.inj hunits) s.indent

/-- A file that is transformed is transformed in the same way under any path. -/
theorem exists_transformText (s : Settings) {path source : String} {r : FileResult}
    (h : (transformText s path source).result = .ok r) (path' : String) :
    ∃ r', (transformText s path' source).result = .ok r' ∧ r'.output = r.output ∧
      r'.modified = r.modified := by
  have hcontent := content_transformText s path path' source
  rw [h] at hcontent
  cases h' : (transformText s path' source).result with
  | error e =>
    rw [h'] at hcontent
    cases hcontent
  | ok r' =>
    rw [h'] at hcontent
    obtain ⟨houtput, hmodified⟩ := Prod.mk.inj (Option.some.inj hcontent)
    exact ⟨r', rfl, houtput.symm, hmodified.symm⟩

end BranchExclusion
