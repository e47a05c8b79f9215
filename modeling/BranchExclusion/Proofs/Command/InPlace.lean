import BranchExclusion.Proofs.Command.Arguments
import BranchExclusion.Proofs.Command.Gathered
import BranchExclusion.Proofs.Transform.Naming

/-!
# Results written in place

* `Arises`: a result that comes from the text of the file at a place;
* `Rewritten`: the files that some results belong to hold these, and all other files are as before;
* `Rewritten.store`: one more result is written, possibly to a file that has been written before;
* `deliverAll_rewritten`: all results are delivered, or those in front of the first failing write;
* `run_in_place`: after a run, each file is as before or holds the result of its own text.

All files are read before the first one is written. So the results that belong to one place come from
one text and agree, by whichever paths the inputs lead there.
-/

namespace BranchExclusion.Command

variable {o : Options} {s : Settings} {input input' : Input} {r r' : FileResult} {p q : FilePlace}
  {d₀ : Disk}

/-- The input leads to a file, whose text gives this result. -/
structure Arises (s : Settings) (d : Disk) (p : FilePlace) (input : Input) (r : FileResult) :
    Prop where
  leads : d.Leads input.path p
  kind : d.tree.kindOf p = some .file
  result : ∃ text, d.textAt p = some text ∧ (transformText s input.path text).result = .ok r

theorem Arises.output_eq (h : Arises s d₀ p input r) (h' : Arises s d₀ p input' r') :
    r'.output = r.output := by
  obtain ⟨text, htext, hresult⟩ := h.result
  obtain ⟨text', htext', hresult'⟩ := h'.result
  obtain rfl : text = text' := Option.some.inj (htext.symm.trans htext')
  obtain ⟨r'', hr'', houtput, -⟩ := exists_transformText s hresult input'.path
  rw [hresult'] at hr''
  cases hr''
  exact houtput

/-- Each of the results comes from the text of the file that its input leads to. -/
def Sound (s : Settings) (d : Disk) (results : List Processed) : Prop :=
  ∀ input r, (input, .ok r) ∈ results → ∃ p, Arises s d p input r

/-- The modified ones of these results stand where their inputs lead to, and all else is as before. -/
structure Rewritten (d : Disk) (results : List Processed) (d' : Disk) : Prop where
  alike : d.Alike d'
  kept (p : FilePlace) :
    (∀ input r, (input, .ok r) ∈ results → r.modified = true → ¬ d.Leads input.path p) →
      d'.tree.files.lookup p = d.tree.files.lookup p
  written (input : Input) (r : FileResult) (p : FilePlace) :
    (input, .ok r) ∈ results → r.modified = true → d.Leads input.path p →
      d'.textAt p = some r.output

namespace Rewritten

variable {done : List Processed} {d' : Disk}

theorem refl (d : Disk) : Rewritten d [] d :=
  ⟨.refl d, fun _ _ => rfl, fun _ _ _ h => absurd h List.not_mem_nil⟩

/-- An input without a modified result is done without being written. -/
theorem skip {result : Except TransformError FileResult} (h : Rewritten d₀ done d')
    (hresult : ∀ r, result = .ok r → r.modified = false) :
    Rewritten d₀ (done ++ [(input, result)]) d' where
  alike := h.alike
  kept p hp := h.kept p fun input' r hmem => hp input' r (List.mem_append_left _ hmem)
  written input' r p hmem hmodified hleads := by
    rcases List.mem_append.1 hmem with hmem | hmem
    · exact h.written input' r p hmem hmodified hleads
    · obtain ⟨-, hr⟩ := Prod.mk.inj (List.mem_singleton.1 hmem)
      rw [hresult r hr.symm] at hmodified
      cases hmodified

/-- One more result is written to its file. A result that stood there before is the same. -/
theorem store (h : Rewritten d₀ done d') (hdone : Sound s d₀ done) (hr : Arises s d₀ p input r)
    (hmodified : r.modified = true) :
    Rewritten d₀ (done ++ [(input, .ok r)]) (d'.rewrite p r.output) where
  alike := by
    have hkind : d'.tree.kindOf p = some .file := (h.alike.kindOf p).trans hr.kind
    have hwrite := Disk.alike_rewrite hkind r.output
    exact ⟨hwrite.home.trans h.alike.home, hwrite.directories.trans h.alike.directories,
      fun q => (hwrite.kindOf q).trans (h.alike.kindOf q)⟩
  kept q hq := by
    have hne : q ≠ p := by
      rintro rfl
      exact hq input r List.mem_concat_self hmodified hr.leads
    rw [Disk.lookup_rewrite_of_ne hne]
    exact h.kept q fun input' r' hmem => hq input' r' (List.mem_append_left _ hmem)
  written input' r' q hmem hmodified' hleads := by
    have hr' : Arises s d₀ q input' r' := by
      rcases List.mem_append.1 hmem with hmem | hmem
      · obtain ⟨q', harises⟩ := hdone input' r' hmem
        rwa [hleads.unique harises.leads]
      · cases List.mem_singleton.1 hmem
        rwa [hleads.unique hr.leads]
    by_cases hq : q = p
    · subst hq
      rw [Disk.textAt_rewrite_self, hr.output_eq hr']
    · rw [Disk.textAt, Disk.lookup_rewrite_of_ne hq]
      rcases List.mem_append.1 hmem with hmem | hmem
      · exact h.written input' r' q hmem hmodified' hleads
      · cases List.mem_singleton.1 hmem
        exact absurd (hleads.unique hr.leads) hq

end Rewritten

/-! ### Delivering the results -/

variable {d d' : Drive} {delivery delivery' : Delivery} {ended : Option Failure}

/-- The result of one of the inputs could not be written. -/
def Unwritable (inputs : List Input) (f : Failure) : Prop :=
  ∃ input ∈ inputs, ∃ e, f = .file ("writing " ++ input.path) e

/-- A modified result is written in place of its file, or this fails; others are not written. -/
theorem deliver_in_place (ho : o.output = none) (hin : o.inPlace = true) (hd : o.dryRun = false)
    {printed : Printed} {told : Except Failure Printed}
    (h : runFrom (deliver o input r printed) d = (told, d')) :
    (told = .ok printed ∧ r.modified = false ∧ d'.disk = d.disk) ∨
      (told = .ok printed ∧ r.modified = true ∧
        d.disk.write input.path r.output = .ok d'.disk) ∨
      ∃ e, told = .error (.file ("writing " ++ input.path) e) ∧ d'.disk = d.disk := by
  unfold deliver at h
  rw [hd, if_neg Bool.false_ne_true, ho, hin] at h
  cases hmodified : r.modified with
  | false =>
    rw [hmodified] at h
    cases h
    exact .inl ⟨rfl, rfl, rfl⟩
  | true =>
    rw [hmodified] at h
    change runFrom (Drive.change (fun d => d.write input.path r.output) >>= _) d = _ at h
    rw [runFrom_bind] at h
    cases hwrite : runFrom (Drive.change fun d => d.write input.path r.output) d with
    | mk done after =>
      rw [hwrite] at h
      rcases Drive.change_cases hwrite with ⟨rfl, hdisk⟩ | ⟨e, rfl, hdisk⟩
      · cases h
        exact .inr (.inl ⟨rfl, rfl, hdisk⟩)
      · cases h
        exact .inr (.inr ⟨e, rfl, hdisk⟩)

/-- Where nothing is to be written, delivering keeps the disk. -/
theorem keeps_deliverAll (hd : o.dryRun = true) (results : List Processed) (delivery : Delivery) :
    Keeps Drive.disk (deliverAll o results delivery) := by
  induction results generalizing delivery with
  | nil => exact .pure _
  | cons processed rest ih =>
    obtain ⟨input, result⟩ := processed
    cases result with
    | error e => exact ih _
    | ok r =>
      have hdeliver (printed : Printed) : Keeps Drive.disk (deliver o input r printed) := by
        unfold deliver
        rw [if_pos hd]
        exact .pure _
      rw [deliverAll]
      refine (hdeliver _).bind fun told => ?_
      cases told with
      | error f => exact .pure _
      | ok printed => exact ih _

/-- All results are delivered, or those in front of the first one that could not be written. -/
theorem deliverAll_rewritten (ho : o.output = none) (hin : o.inPlace = true)
    (hd : o.dryRun = false) {done results : List Processed}
    (hsound : Sound s d₀ (done ++ results)) (hdone : Rewritten d₀ done d.disk)
    (h : runFrom (deliverAll o results delivery) d = ((delivery', ended), d')) :
    (ended = none ∧ Rewritten d₀ (done ++ results) d'.disk) ∨
      (∃ f, ended = some f ∧ Unwritable (results.map Prod.fst) f) ∧
        ∃ delivered, delivered <+: results ∧ Rewritten d₀ (done ++ delivered) d'.disk := by
  induction results generalizing done d delivery with
  | nil =>
    cases h
    rw [List.append_nil]
    exact .inl ⟨rfl, hdone⟩
  | cons processed rest ih =>
    obtain ⟨input, result⟩ := processed
    -- what is delivered behind this result is delivered behind one more that is done
    have hrest {d : Drive} {delivery : Delivery}
        (hdone : Rewritten d₀ (done ++ [(input, result)]) d.disk)
        (h : runFrom (deliverAll o rest delivery) d = ((delivery', ended), d')) :
        (ended = none ∧ Rewritten d₀ (done ++ (input, result) :: rest) d'.disk) ∨
          (∃ f, ended = some f ∧ Unwritable (((input, result) :: rest).map Prod.fst) f) ∧
            ∃ delivered, delivered <+: (input, result) :: rest ∧
              Rewritten d₀ (done ++ delivered) d'.disk := by
      rw [List.append_cons] at hsound ⊢
      rcases ih hsound hdone h with hall | ⟨⟨f, hended, input', hmem, hf⟩, delivered, hprefix, hd'⟩
      · exact .inl hall
      · rw [List.append_assoc] at hd'
        exact .inr ⟨⟨f, hended, input', List.mem_cons_of_mem _ hmem, hf⟩, _,
          List.cons_prefix_cons.2 ⟨rfl, hprefix⟩, hd'⟩
    cases result with
    | error e => exact hrest (hdone.skip fun r hr => by cases hr) h
    | ok r =>
      rw [deliverAll, runFrom_bind] at h
      cases hdeliver : runFrom (deliver o input r
        (delivery.printed.tellAll (r.errors.map fun e => ⟨.warning, e⟩))) d with
      | mk told after =>
        rw [hdeliver] at h
        rcases deliver_in_place ho hin hd hdeliver with
          ⟨rfl, hmodified, hdisk⟩ | ⟨rfl, hmodified, hwrite⟩ | ⟨e, rfl, hdisk⟩
        · refine hrest ?_ h
          rw [hdisk]
          exact hdone.skip fun r' hr' => by
            cases hr'
            exact hmodified
        · refine hrest ?_ h
          obtain ⟨p, hr⟩ := hsound input r (List.mem_append_right _ List.mem_cons_self)
          obtain ⟨q, hleads, -, hdisk⟩ := Disk.write_eq_ok hwrite
          obtain rfl : q = p := (hdone.alike.leads_iff.1 hleads).unique hr.leads
          rw [hdisk]
          exact hdone.store (fun input' r' hmem => hsound input' r' (List.mem_append_left _ hmem))
            hr hmodified
        · cases h
          refine .inr ⟨⟨_, rfl, input, List.mem_cons_self, e, rfl⟩, [], List.nil_prefix, ?_⟩
          rw [List.append_nil, hdisk]
          exact hdone

/-! ### A whole run -/

variable {inputs : List Input} {transformed : List Transformed} {ending : Ending}

/-- A result that is got comes from the disk as it is then. -/
theorem arises_transformFile
    (h : (runFrom (transformFile s input.path) d).1.result = .ok r) :
    ∃ p, Arises s d.disk p input r := by
  change ((runFrom (Drive.look (fun d => d.read input.path) >>= _) d).1 : Transformed).result = _ at h
  rw [runFrom_bind] at h
  cases hread : (runFrom (Drive.look fun d => d.read input.path) d).1 with
  | error e =>
    rw [hread] at h
    cases h
  | ok text =>
    rw [hread] at h
    obtain ⟨p, hleads, hkind, htext⟩ := Disk.read_eq_ok (Drive.look_eq_ok hread)
    exact ⟨p, hleads, hkind, text, htext, h⟩

theorem Gathered.sound (h : Gathered o d s inputs transformed) :
    Sound s d.disk (resultsOf inputs transformed) := by
  intro input r hmem
  obtain ⟨d₁, d₂, d₃, hsettings, hinputs, hmap⟩ := h
  obtain ⟨t, hmem, ht⟩ := mem_resultsOf.1 hmem
  have hd₁ : d₁.disk = d.disk := by
    rw [← Drive.looking.settingsOf o d, hsettings]
  have hd₂ : d₂.disk = d.disk := by
    rw [← hd₁, ← Drive.looking.collectInputs o.inputs d₁, hinputs]
  have hall := Keeps.forall₂_mapM (fun input : Input => Drive.looking.transformFile s input.path)
    inputs d₂
  rw [hmap] at hall
  obtain ⟨d', hd', ht'⟩ := (List.forall₂_iff_zip.1 hall).2 hmem
  rw [← hd₂, ← hd']
  exact arises_transformFile (by rw [ht', ht])

/-- What is delivered in place is what was gathered, or the part in front of a failing write. -/
theorem exists_delivered {arguments : List String}
    (hoptions : Options.ofArguments arguments = .ok o) (hin : o.inPlace = true)
    (hd : o.dryRun = false) (hreport : o.report = none)
    (h : runFrom (run arguments) d = (ending, d')) :
    (d'.disk = d.disk ∧ ∀ s inputs transformed, Gathered o d s inputs transformed → inputs = []) ∨
      ∃ s inputs transformed, Gathered o d s inputs transformed ∧
        ∃ delivered, delivered <+: resultsOf inputs transformed ∧
          Rewritten d.disk delivered d'.disk ∧
          ((∃ f, ending.error = f.message ∧ Unwritable inputs f) ∨
            delivered = resultsOf inputs transformed) := by
  have ho := Options.output_eq_none hoptions hin
  rcases run_cases hoptions hreport h with hnone | ⟨s, inputs, transformed, hgathered, d₁, delivery,
    delivery', ended, hd₁, hall, hended⟩
  · exact .inl hnone
  · have hsound : Sound s d₁.disk ([] ++ resultsOf inputs transformed) := by
      rw [hd₁]
      exact hgathered.sound
    refine .inr ⟨s, inputs, transformed, hgathered, ?_⟩
    rw [← hd₁]
    rcases deliverAll_rewritten ho hin hd hsound (.refl d₁.disk) hall with
      ⟨-, hrewritten⟩ | ⟨⟨f, hf, input, hinput, hwhy⟩, delivered, hprefix, hrewritten⟩
    · exact ⟨_, List.prefix_rfl, hrewritten, .inr rfl⟩
    · obtain ⟨⟨input', result⟩, hmem, rfl⟩ := List.mem_map.1 hinput
      exact ⟨delivered, hprefix, hrewritten,
        .inl ⟨f, (hended f hf).2, input', (List.of_mem_zip hmem).1, hwhy⟩⟩

/-- Where nothing is to be written, a run keeps the disk. -/
theorem disk_eq_of_dry {arguments : List String}
    (hoptions : Options.ofArguments arguments = .ok o) (hd : o.dryRun = true)
    (hreport : o.report = none) (h : runFrom (run arguments) d = (ending, d')) :
    d'.disk = d.disk := by
  rcases run_cases hoptions hreport h with ⟨hdisk, -⟩ | ⟨s, inputs, transformed, -, d₁, delivery, _,
    _, hd₁, hall, -⟩
  · exact hdisk
  · rw [← hd₁, ← keeps_deliverAll hd (resultsOf inputs transformed) delivery d₁, hall]

/-- After a run in place, however it ends, a file is as it was before or holds what its own text then is
transformed to, by whichever of the inputs that lead there. All modified results are written, unless
one of them cannot be. With nothing to be written any run keeps the disk. -/
theorem run_in_place {arguments : List String} (hoptions : Options.ofArguments arguments = .ok o)
    (hreport : o.report = none) (h : runFrom (run arguments) d = (ending, d')) :
    (o.dryRun = true → d'.disk = d.disk) ∧
    (o.inPlace = true → o.dryRun = false →
      d'.disk.home = d.disk.home ∧ d'.disk.tree.directories = d.disk.tree.directories ∧
      (∀ p, d'.disk.tree.files.lookup p = d.disk.tree.files.lookup p ∨
        ∃ s inputs transformed, Gathered o d s inputs transformed ∧
          ∃ input t r text, (input, t) ∈ inputs.zip transformed ∧ t.result = .ok r ∧
            r.modified = true ∧ d.disk.Leads input.path p ∧ d.disk.textAt p = some text ∧
            d'.disk.textAt p = some r.output ∧
            ∀ path, ∃ r', (transformText s path text).result = .ok r' ∧ r'.output = r.output ∧
              r'.modified = true) ∧
      ∀ s inputs transformed, Gathered o d s inputs transformed →
        (∃ f, ending.error = f.message ∧ Unwritable inputs f) ∨
        ∀ input t r p, (input, t) ∈ inputs.zip transformed → t.result = .ok r →
          r.modified = true → d.disk.Leads input.path p → d'.disk.textAt p = some r.output) := by
  refine ⟨fun hd => disk_eq_of_dry hoptions hd hreport h, fun hin hd => ?_⟩
  rcases exists_delivered hoptions hin hd hreport h with
    ⟨hdisk, hnone⟩ | ⟨s, inputs, transformed, hgathered, delivered, hprefix, hrewritten, hcomplete⟩
  · rw [hdisk]
    refine ⟨rfl, rfl, fun p => .inl rfl, fun s inputs transformed hgathered => .inr ?_⟩
    rw [hnone s inputs transformed hgathered]
    exact fun input t r p hmem => absurd hmem List.not_mem_nil
  · refine ⟨hrewritten.alike.home, hrewritten.alike.directories, fun p => ?_, ?_⟩
    · by_cases hkept : ∀ input r, (input, .ok r) ∈ delivered → r.modified = true →
          ¬ d.disk.Leads input.path p
      · exact .inl (hrewritten.kept p hkept)
      · push Not at hkept
        obtain ⟨input, r, hmem, hmodified, hleads⟩ := hkept
        have hresult := hprefix.subset hmem
        obtain ⟨t, ht, hr⟩ := mem_resultsOf.1 hresult
        obtain ⟨p', harises⟩ := hgathered.sound input r hresult
        obtain rfl : p' = p := harises.leads.unique hleads
        obtain ⟨text, htext, htransformed⟩ := harises.result
        refine .inr ⟨s, inputs, transformed, hgathered, input, t, r, text, ht, hr, hmodified, hleads,
          htext, hrewritten.written input r p' hmem hmodified hleads, fun path => ?_⟩
        obtain ⟨r', hr', houtput, hmodified'⟩ := exists_transformText s htransformed path
        exact ⟨r', hr', houtput, hmodified'.trans hmodified⟩
    · intro s' inputs' transformed' hgathered'
      obtain ⟨rfl, rfl, rfl⟩ := hgathered.unique hgathered'
      refine hcomplete.imp_right fun hall input t r p hmem hr hmodified hleads => ?_
      exact hrewritten.written input r p (hall ▸ mem_resultsOf.2 ⟨t, hmem, hr⟩) hmodified hleads

/-! ### A file reached twice -/

/-- A file with a chain of two conditionals. -/
def chainedFile : String := "class A\x7bvoid f()\x7bif(a)b();\nif(c)d();\x7d\x7d"

/-- The file in the working directory, on a disk with no failures to come. -/
def chainedDrive : Drive :=
  ⟨⟨⟨[(["w", "X.java"], some chainedFile), (["w", "notes"], none)], [["w"]]⟩, ["w"]⟩, []⟩

/-- The file is named by two paths. -/
def twiceArguments : List String := ["--in-place", "X.java", "/w/./X.java"]

/-- What these arguments ask for. -/
def twiceOptions : Options :=
  { Options.none with
    inputs := ["X.java", "/w/./X.java"]
    inPlace := true
    given := [.flag .inPlace] }

/-- The two inputs are gathered, each with what the file is transformed to. -/
theorem gathered_twice : Gathered twiceOptions chainedDrive .standard
    [⟨"X.java", "X.java"⟩, ⟨"/w/./X.java", "X.java"⟩]
    [transformText .standard "X.java" chainedFile,
      transformText .standard "/w/./X.java" chainedFile] := by
  refine ⟨chainedDrive, chainedDrive, chainedDrive, rfl, by decide +kernel, ?_⟩
  have hfirst : runFrom (transformFile .standard "X.java") chainedDrive =
      (transformText .standard "X.java" chainedFile, chainedDrive) :=
    runFrom_transformFile rfl (by decide +kernel)
  have hsecond : runFrom (transformFile .standard "/w/./X.java") chainedDrive =
      (transformText .standard "/w/./X.java" chainedFile, chainedDrive) :=
    runFrom_transformFile rfl (by decide +kernel)
  simp only [List.mapM_cons, List.mapM_nil, runFrom_bind, runFrom_pure, hfirst, hsecond]

/-- The file is written twice, and holds what its text was transformed to once. -/
theorem run_in_place_twice :
    (Options.ofArguments twiceArguments = .ok twiceOptions ∧ twiceOptions.inPlace = true ∧
      twiceOptions.report = none) ∧
    ∃ r, (transformText .standard "X.java" chainedFile).result = .ok r ∧ r.modified = true ∧
      (runFrom (run twiceArguments) chainedDrive).2.disk.textAt ["w", "X.java"] =
        some r.output := by
  have hoptions : Options.ofArguments twiceArguments = .ok twiceOptions := by decide +kernel
  obtain ⟨-, hfiles⟩ := run_in_place hoptions rfl Prod.mk.eta.symm (d := chainedDrive)
  obtain ⟨-, -, -, hwritten⟩ := hfiles rfl rfl
  have hmodified : ((transformText .standard "X.java" chainedFile).result.toOption.map
      FileResult.modified) = some true := by decide +kernel
  refine ⟨⟨hoptions, rfl, rfl⟩, ?_⟩
  cases hresult : (transformText .standard "X.java" chainedFile).result with
  | error e =>
    rw [hresult] at hmodified
    cases hmodified
  | ok r =>
    rw [hresult] at hmodified
    have hr : r.modified = true := Option.some.inj hmodified
    refine ⟨r, rfl, hr, ?_⟩
    rcases hwritten _ _ _ gathered_twice with ⟨f, hf, -⟩ | hwritten
    · have hnone : (runFrom (run twiceArguments) chainedDrive).1.error = "" := by decide +kernel
      rw [hnone] at hf
      simp [Failure.message] at hf
    · exact hwritten _ _ r _ List.mem_cons_self hresult hr ⟨by decide +kernel, by decide +kernel⟩

end BranchExclusion.Command
