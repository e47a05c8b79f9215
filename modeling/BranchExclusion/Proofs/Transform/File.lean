import BranchExclusion.Proofs.Java.Methods
import BranchExclusion.Proofs.Transform.Placed
import BranchExclusion.Proofs.Transform.Unit

/-!
# Transforming a file

* `layouts_reach_file_once`: whatever bodies are laid out, and whether that succeeds or not, their
  text reaches the file once, and the rest of the file is kept.
-/

namespace BranchExclusion

/-- The methods of a file that was read have trees as bodies. -/
theorem Java.treeShaped_readUnit (path source : String) :
    ∀ m ∈ (Java.readUnit path source).methods, m.body.TreeShaped := by
  intro m hm
  obtain ⟨s, -, rfl⟩ := List.mem_map.1 hm
  exact Tree.treeShaped_bodyIn source.toList s.body

/-- The text of a file is put together when its edits can be applied. -/
theorem result_transformText {s : Settings} {path source : String} {i : Instrumentation}
    {output : List Char} (hs : s.validate = .ok ())
    (hi : (Java.readUnit path source).instrument s = .ok i)
    (hsplice : splice i.unit.source.toList (i.layouts (.standard s.indent)).edits = .ok output) :
    ∃ r, (transformText s path source).result = .ok r ∧ r.output = String.ofList output ∧
      r.modified = !(i.layouts (.standard s.indent)).edits.isEmpty := by
  unfold transformText
  rw [hs]
  dsimp only
  rw [hi]
  dsimp only
  unfold Instrumentation.finish
  dsimp only
  rw [hsplice]
  exact ⟨_, rfl, rfl, rfl⟩

theorem exists_of_output {s : Settings} {path source output : String}
    (h : (transformText s path source).result.toOption.map FileResult.output = some output) :
    ∃ r, (transformText s path source).result = .ok r ∧ r.output = output := by
  cases hresult : (transformText s path source).result with
  | error e =>
    rw [hresult] at h
    cases h
  | ok r =>
    rw [hresult] at h
    exact ⟨r, rfl, Option.some.inj h⟩

/-- **Laid out bodies reach the file once.** The bodies of a file nest. Whichever of them can be
laid out, each that can is an edit of the file or part of the smallest one around it, and the edits
can be applied. So a file whose bodies nest is always transformed. Its text is that of the source
with the edits exchanged and everything else kept, and it counts as modified when some body was laid
out. -/
theorem layouts_reach_file_once :
    (∀ (i : Instrumentation) (render : Renderer), i.unit.Laminar → i.instrumented.Nodup →
      i.PlacedOnce render) ∧
    ∀ (s : Settings) (path source : String), s.validate = .ok () →
      (Java.readUnit path source).Laminar → ∃ i r,
        (Java.readUnit path source).instrument s = .ok i ∧ i.PlacedOnce (.standard s.indent) ∧
        (transformText s path source).result = .ok r ∧
        r.output.toList = patch source.toList 0 (Text.byteLength source.toList)
          (ascending (i.layouts (.standard s.indent)).edits) ∧
        (r.modified = true ↔
          ∃ c ∈ i.calls (.standard s.indent), ∃ text, c.result = .ok text) := by
  refine ⟨fun i render hunit hi => Instrumentation.placedOnce hunit hi render, ?_⟩
  intro s path source hs hunit
  obtain ⟨i, hi, -, hsource, hranges, hnodup⟩ :=
    (Java.readUnit path source).exists_instrument s (Java.treeShaped_readUnit path source)
  have hplaced := Instrumentation.placedOnce (hunit.congr hsource hranges) hnodup
    (.standard s.indent)
  obtain ⟨r, hr, houtput, hmodified⟩ := result_transformText hs hi hplaced.spliced
  have hsource' : i.unit.source = source := hsource
  refine ⟨i, r, hi, hplaced, hr, ?_, ?_⟩
  · rw [houtput, String.toList_ofList, hsource']
  · rw [hmodified, Bool.not_eq_true', List.isEmpty_eq_false_iff, Ne,
      Instrumentation.edits_eq_nil_iff]
    constructor
    · intro hne
      obtain ⟨e, he⟩ := List.exists_mem_of_ne_nil _ hne
      obtain ⟨c, hc, hedit⟩ := List.mem_filterMap.1 he
      exact ⟨c, hc, e.text, (LayoutCall.edit?_eq_some.1 hedit).2⟩
    · rintro ⟨c, hc, text, htext⟩
      have hedit : c.edit? = some ⟨c.method.bodyRange, text⟩ :=
        LayoutCall.edit?_eq_some.2 ⟨rfl, htext⟩
      exact List.ne_nil_of_mem (List.mem_filterMap.2 ⟨c, hc, hedit⟩)

/-- A method with two conditionals, which passes a lambda with two more. -/
def nestedSource : String :=
  "class A\x7bvoid f(boolean a,boolean b)\x7bif(a)\x7bx();\x7dif(b)\x7by();\x7d" ++
    "g(()->\x7bif(a)\x7bx();\x7dif(b)\x7by();\x7d\x7d);\x7d\x7d"

/-- The lambda lies in the method. Both can be instrumented, whatever the layout makes of either. -/
theorem layouts_reach_file_once_nested :
    let unit := Java.readUnit "A.java" nestedSource
    unit.methods.map Method.bodyRange = [⟨35, 91⟩, ⟨64, 88⟩] ∧ unit.Laminar ∧
      Settings.standard.validate = .ok () ∧
      (∀ render, (⟨unit, .empty, [0, 1], .zero, [], []⟩ : Instrumentation).PlacedOnce render) ∧
      ∃ i r, unit.instrument .standard = .ok i ∧ i.PlacedOnce (.standard "    ") ∧
        (transformText .standard "A.java" nestedSource).result = .ok r ∧
        r.output.toList = patch nestedSource.toList 0 92
          (ascending (i.layouts (.standard "    ")).edits) := by
  intro unit
  have hunit : unit.Laminar := by decide +kernel
  obtain ⟨hlayouts, hfile⟩ := layouts_reach_file_once
  obtain ⟨i, r, hi, hplaced, hr, houtput, -⟩ := hfile .standard "A.java" nestedSource rfl hunit
  have hboth : ∀ render, (⟨unit, .empty, [0, 1], .zero, [], []⟩ : Instrumentation).PlacedOnce
      render := fun render => hlayouts _ render hunit (by decide)
  exact ⟨by decide +kernel, hunit, rfl, hboth, i, r, hi, hplaced, hr, houtput⟩

end BranchExclusion
