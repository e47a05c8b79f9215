import BranchExclusion.Proofs.Files.Disk

/-!
# What a run reads before it writes

* `Gathered`: the settings of a run, its inputs, and what became of each of them;
* `resultsOf`: what became of the inputs, each with its input;
* `run_cases`: a run that reports nothing ends before it delivers, or with what it gathered being
  delivered.

All files are read before the first one is written.
-/

namespace BranchExclusion.Command

variable {o : Options} {s : Settings} {input : Input} {inputs : List Input}
  {transformed : List Transformed} {d d' : Drive} {ending : Ending}

/-- What became of an input. -/
abbrev Processed := Input × Except TransformError FileResult

/-- What a run reads before it writes: its settings, its inputs, and what became of each of them. -/
def Gathered (o : Options) (d : Drive) (s : Settings) (inputs : List Input)
    (transformed : List Transformed) : Prop :=
  ∃ d₁ d₂ d₃, runFrom (settingsOf o) d = (.ok s, d₁) ∧
    runFrom (collectInputs o.inputs) d₁ = (.ok inputs, d₂) ∧
    runFrom (inputs.mapM fun input => transformFile s input.path) d₂ = (transformed, d₃)

/-- The results that were gathered, each with its input. -/
def resultsOf (inputs : List Input) (transformed : List Transformed) : List Processed :=
  inputs.zip (transformed.map Transformed.result)

theorem mem_resultsOf {result : Except TransformError FileResult} :
    (input, result) ∈ resultsOf inputs transformed ↔
      ∃ t, (input, t) ∈ inputs.zip transformed ∧ t.result = result := by
  rw [resultsOf, List.zip_map_right, List.mem_map]
  constructor
  · rintro ⟨⟨input', t⟩, hmem, heq⟩
    cases heq
    exact ⟨t, hmem, rfl⟩
  · rintro ⟨t, hmem, rfl⟩
    exact ⟨(input, t), hmem, rfl⟩

theorem Gathered.unique {s' : Settings} {inputs' : List Input} {transformed' : List Transformed}
    (h : Gathered o d s inputs transformed) (h' : Gathered o d s' inputs' transformed') :
    s' = s ∧ inputs' = inputs ∧ transformed' = transformed := by
  obtain ⟨d₁, d₂, d₃, hs, hi, hmap⟩ := h
  obtain ⟨d₁', d₂', d₃', hs', hi', hmap'⟩ := h'
  cases hs.symm.trans hs'
  cases hi.symm.trans hi'
  cases hmap.symm.trans hmap'
  exact ⟨rfl, rfl, rfl⟩

/-- A file that is read without trouble is transformed. -/
theorem runFrom_transformFile {path text : String} (htrouble : d.trouble = none)
    (hread : d.disk.read path = .ok text) :
    runFrom (transformFile s path) d = (transformText s path text, d.next) := by
  change runFrom (Drive.look (fun d => d.read path) >>= _) d = _
  rw [runFrom_bind, Drive.run_look, htrouble, hread]
  rfl

/-- Where nothing is reported, all that happens behind the reading is that the results are delivered. -/
theorem process_cases (hreport : o.report = none)
    (h : runFrom (process o s inputs) d = (ending, d')) :
    ∃ transformed d₁ delivery delivery' ended,
      runFrom (inputs.mapM fun input => transformFile s input.path) d = (transformed, d₁) ∧
      runFrom (deliverAll o (resultsOf inputs transformed) delivery) d₁ =
        ((delivery', ended), d') ∧
      ∀ f, ended = some f → ending.code = 1 ∧ ending.error = f.message := by
  rw [process, runFrom_bind] at h
  cases hmap : runFrom (inputs.mapM fun input => transformFile s input.path) d with
  | mk transformed d₁ =>
    rw [hmap, runFrom_bind] at h
    dsimp only at h
    cases hall : runFrom (deliverAll o (inputs.zip (transformed.map Transformed.result)) _) d₁ with
    | mk done after =>
      obtain ⟨delivery', ended⟩ := done
      rw [hall] at h
      cases ended with
      | some f =>
        cases h
        exact ⟨transformed, d₁, _, delivery', some f, rfl, hall, fun f' hf' => by
          cases hf'
          exact ⟨rfl, rfl⟩⟩
      | none =>
        have hnothing : deliverReport o delivery' =
            (Pure.pure (.ok delivery'.printed) : StateM Drive _) := by
          rw [deliverReport, hreport]
        dsimp only at h
        rw [hnothing, runFrom_bind, runFrom_pure] at h
        have hafter : d' = after := by
          dsimp only at h
          split at h
          · cases h
            rfl
          · cases h
            rfl
        subst hafter
        exact ⟨transformed, d₁, _, delivery', none, rfl, hall, fun f hf => by cases hf⟩

/-- A run that reports nothing ends before it delivers, or with what it gathered being delivered. -/
theorem perform_cases (hreport : o.report = none) (h : runFrom (perform o) d = (ending, d')) :
    (d'.disk = d.disk ∧ ∀ s inputs transformed, Gathered o d s inputs transformed → inputs = []) ∨
      ∃ s inputs transformed, Gathered o d s inputs transformed ∧
        ∃ d₁ delivery delivery' ended, d₁.disk = d.disk ∧
          runFrom (deliverAll o (resultsOf inputs transformed) delivery) d₁ =
            ((delivery', ended), d') ∧
          ∀ f, ended = some f → ending.code = 1 ∧ ending.error = f.message := by
  rw [perform, runFrom_bind] at h
  cases hs : runFrom (settingsOf o) d with
  | mk settings d₁ =>
    have hd₁ : d₁.disk = d.disk := by
      rw [← Drive.looking.settingsOf o d, hs]
    rw [hs] at h
    cases settings with
    | error f =>
      cases h
      refine .inl ⟨hd₁, fun s inputs transformed hgathered => ?_⟩
      obtain ⟨_, _, _, hs', -⟩ := hgathered
      rw [hs] at hs'
      cases hs'
    | ok s =>
      dsimp only at h
      rw [runFrom_bind] at h
      cases hi : runFrom (collectInputs o.inputs) d₁ with
      | mk inputs d₂ =>
        have hd₂ : d₂.disk = d.disk := by
          rw [← hd₁, ← Drive.looking.collectInputs o.inputs d₁, hi]
        rw [hi] at h
        -- where no input is collected, none is gathered
        have hnone (hinputs : inputs.toOption.getD [] = []) :
            ∀ s inputs transformed, Gathered o d s inputs transformed → inputs = [] := by
          intro s' inputs' transformed hgathered
          obtain ⟨_, _, _, hs', hi', -⟩ := hgathered
          rw [hs] at hs'
          cases hs'
          rw [hi] at hi'
          cases hi'
          exact hinputs
        cases inputs with
        | error f =>
          cases h
          exact .inl ⟨hd₂, hnone rfl⟩
        | ok inputs =>
          cases inputs with
          | nil =>
            cases h
            exact .inl ⟨hd₂, hnone rfl⟩
          | cons first rest =>
            obtain ⟨transformed, d₃, delivery, delivery', ended, hmap, hall, hended⟩ :=
              process_cases hreport h
            have hd₃ : d₃.disk = d.disk := by
              rw [← hd₂, ← Keeps.mapM (fun input : Input =>
                Drive.looking.transformFile s input.path) (first :: rest) d₂, hmap]
            exact .inr ⟨s, first :: rest, transformed, ⟨d₁, d₂, d₃, hs, hi, hmap⟩, d₃, delivery,
              delivery', ended, hd₃, hall, hended⟩

/-- A run that reports nothing ends before it delivers, or with what it gathered being delivered. -/
theorem run_cases {arguments : List String} (hoptions : Options.ofArguments arguments = .ok o)
    (hreport : o.report = none) (h : runFrom (run arguments) d = (ending, d')) :
    (d'.disk = d.disk ∧ ∀ s inputs transformed, Gathered o d s inputs transformed → inputs = []) ∨
      ∃ s inputs transformed, Gathered o d s inputs transformed ∧
        ∃ d₁ delivery delivery' ended, d₁.disk = d.disk ∧
          runFrom (deliverAll o (resultsOf inputs transformed) delivery) d₁ =
            ((delivery', ended), d') ∧
          ∀ f, ended = some f → ending.code = 1 ∧ ending.error = f.message := by
  rw [run, hoptions] at h
  dsimp only at h
  rw [runFrom_bind] at h
  -- only the lines of the log that are shown differ
  obtain ⟨told, hperform, hcode, herror⟩ : ∃ told, runFrom (perform o) d = (told, d') ∧
      ending.code = told.code ∧ ending.error = told.error := by
    cases h
    exact ⟨_, rfl, rfl, rfl⟩
  rw [hcode, herror]
  exact perform_cases hreport hperform

end BranchExclusion.Command
