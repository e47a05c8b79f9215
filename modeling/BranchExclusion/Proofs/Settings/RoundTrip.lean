import BranchExclusion.Proofs.Yaml.Text
import BranchExclusion.Settings.Document

/-!
# Settings survive their document

* `Fields.readEntries_cons`: one more field of a document;
* `Settings.entry`: the line that is written for each field;
* `Settings.ofYaml_toYaml`: valid settings are read back from their document;
* `Settings.survive_yaml`: so are settings that were read, for these are valid.
-/

namespace BranchExclusion

open Yaml (Entry Node ScalarStyle)

/-! ### Fields -/

namespace FieldName

theorem isKey (name : FieldName) : Yaml.IsKey name.text := by
  cases name <;> exact ⟨by decide, List.all_eq_true.1 (by decide), by decide⟩

@[simp] theorem ofText?_text (name : FieldName) : ofText? name.text = some name := by
  cases name <;> rfl

end FieldName

namespace Fields

/-- The scalar is a value: it has quotes, or it is neither empty nor a word for null. -/
theorem isAbsent_eq_false {style : ScalarStyle} {text : String}
    (h : style = .plain → text.isEmpty = false ∧ Yaml.isNull text = false) :
    isAbsent .none style text = .ok false := by
  unfold isAbsent
  split
  · next hplain =>
    obtain ⟨hempty, hnull⟩ := h hplain
    simp [hempty, hnull]
  · rfl

/-- One more field, which was not given before. -/
theorem readEntries_cons {f g : Fields} {seen : List FieldName} {e : Entry} (name : FieldName)
    (rest : List (Node × Node)) (hkey : e.key = name.text) (hnew : name ∉ seen)
    (hvalue : e.style = .plain → e.text.isEmpty = false ∧ Yaml.isNull e.text = false)
    (hput : f.put name .none e.style e.text = .ok g) :
    readEntries f seen (e.nodes :: rest) = readEntries g (name :: seen) rest := by
  rw [Entry.nodes, readEntries, hkey, FieldName.ofText?_text]
  simp [hnew, isAbsent_eq_false hvalue, hput]

variable {f : Fields} {style : ScalarStyle} {text : String}

theorem put_exitPolicy (policy : ExitPolicy) :
    f.put .exitPolicy .none style policy.name = .ok { f with exitPolicy := some policy } := by
  simp [put, readPolicy]

theorem put_version {n : ℕ} (h : Yaml.readUnsigned UInt32.size text = some n) :
    f.put .version .none .plain text = .ok { f with version := some n } := by
  simp [put, readCount, h]

theorem put_minChainLength {n : ℕ} (h : Yaml.readUnsigned UInt64.size text = some n) :
    f.put .minChainLength .none .plain text = .ok { f with minChainLength := some n } := by
  simp [put, readCount, h]

end Fields

namespace Settings

variable {s : Settings} {text : String}

/-! ### Valid settings -/

/-- Settings whose fields are all accepted. -/
structure Valid (s : Settings) : Prop where
  length : leastLength ≤ s.minChainLength ∧ s.minChainLength ≤ greatestLength
  flagPrefix : isJavaIdentifier s.flagPrefix = true
  flagType : isFlagType s.flagType = true
  indent : isIndentation s.indent = true

theorem validate_eq_ok : s.validate = .ok () ↔ s.Valid := by
  unfold validate checkLength checkPrefix checkType checkIndent
  constructor
  · intro h
    obtain ⟨_, hlength, h⟩ := bind_eq_ok.1 h
    obtain ⟨_, hname, h⟩ := bind_eq_ok.1 h
    obtain ⟨_, htype, hindent⟩ := bind_eq_ok.1 h
    have accepted : ∀ {c : Prop} [Decidable c] {e : SettingsError} {u : Unit},
        (if c then .ok () else .error e) = Except.ok u → c := by
      intro c _ e u h
      by_contra hc
      rw [if_neg hc] at h
      cases h
    exact ⟨accepted hlength, accepted hname, accepted htype, accepted hindent⟩
  · rintro ⟨hlength, hname, htype, hindent⟩
    rw [if_pos hlength, if_pos hname, if_pos htype, if_pos hindent]
    rfl

/-- No field of valid settings has a line feed. -/
theorem Valid.lineFeed (h : s.Valid) :
    '\n' ∉ s.flagPrefix.toList ∧ '\n' ∉ s.flagType.toList ∧ '\n' ∉ s.indent.toList := by
  refine ⟨fun hn => ?_, fun hn => ?_, fun hn => ?_⟩
  · have hname := h.flagPrefix
    unfold isJavaIdentifier at hname
    split at hname
    · cases hname
    · next c rest heq =>
      rw [heq] at hn
      simp only [Bool.and_eq_true, List.all_eq_true] at hname
      rcases List.mem_cons.1 hn with rfl | hn
      · exact absurd hname.1 (by decide +kernel)
      · exact absurd (hname.2 _ hn) (by decide +kernel)
  · have htype := h.flagType
    simp only [isFlagType, Bool.and_eq_true, Bool.not_eq_true', List.any_eq_false] at htype
    exact absurd (htype.2 _ hn) (by decide)
  · have hindent := h.indent
    simp only [isIndentation, Bool.and_eq_true, List.all_eq_true] at hindent
    exact absurd (hindent.2 _ hn) (by decide)

/-! ### The document -/

/-- The line that is written for a field. -/
def entry (s : Settings) (name : FieldName) : Entry :=
  match name with
  | .version => .ofPlain name.text "1"
  | .exitPolicy => .ofText name.text s.exitPolicy.name
  | .flagPrefix => .ofText name.text s.flagPrefix
  | .flagType => .ofText name.text s.flagType
  | .minChainLength => .ofPlain name.text (toString s.minChainLength)
  | .indent => .ofText name.text s.indent

theorem lineFeed_name (policy : ExitPolicy) : '\n' ∉ policy.name.toList := by
  cases policy <;> decide

/-- What is written for a chain length is a number of this value and no text. -/
theorem count_eq {n : ℕ} (h : leastLength ≤ n ∧ n ≤ greatestLength) :
    Yaml.allowsPlain (toString n).toList = true ∧ (toString n).toList ≠ [] ∧
      (toString n).isEmpty = false ∧ Yaml.isNull (toString n) = false ∧
      Yaml.readUnsigned UInt64.size (toString n) = some n := by
  obtain ⟨hlow, hhigh⟩ := h
  simp only [leastLength, greatestLength] at hlow hhigh
  interval_cases n <;> exact ⟨by decide, by decide, by decide, by decide, by decide⟩

theorem Valid.readable (h : s.Valid) (name : FieldName) : (s.entry name).Readable := by
  obtain ⟨hname, htype, hindent⟩ := h.lineFeed
  cases name with
  | version => exact Entry.readable_ofPlain (FieldName.isKey _) (by decide) (by decide)
  | exitPolicy => exact Entry.readable_ofText (FieldName.isKey _) (lineFeed_name _)
  | flagPrefix => exact Entry.readable_ofText (FieldName.isKey _) hname
  | flagType => exact Entry.readable_ofText (FieldName.isKey _) htype
  | minChainLength =>
    obtain ⟨hplain, hne, -⟩ := count_eq h.length
    exact Entry.readable_ofPlain (FieldName.isKey _) hplain hne
  | indent => exact Entry.readable_ofText (FieldName.isKey _) hindent

theorem Valid.toYaml_eq (h : s.Valid) :
    s.toYaml = String.ofList ((FieldName.all.map s.entry).flatMap Entry.line) := by
  obtain ⟨hname, htype, hindent⟩ := h.lineFeed
  have hplain : Yaml.allowsPlain "1".toList = true := by decide
  have hversion : Yaml.writeEntry "version" ['1'] = (s.entry .version).line :=
    Entry.line_ofPlain hplain
  have hpolicy : Yaml.writeEntry "exit_policy" (Yaml.writeText s.exitPolicy.name) =
      (s.entry .exitPolicy).line := Entry.line_ofText (lineFeed_name _)
  have hname' : Yaml.writeEntry "flag_prefix" (Yaml.writeText s.flagPrefix) =
      (s.entry .flagPrefix).line := Entry.line_ofText hname
  have htype' : Yaml.writeEntry "flag_type" (Yaml.writeText s.flagType) =
      (s.entry .flagType).line := Entry.line_ofText htype
  have hlength : Yaml.writeEntry "min_chain_len" (toString s.minChainLength).toList =
      (s.entry .minChainLength).line := Entry.line_ofPlain (count_eq h.length).1
  have hindent' : Yaml.writeEntry "indent" (Yaml.writeText s.indent) = (s.entry .indent).line :=
    Entry.line_ofText hindent
  rw [toYaml, hversion, hpolicy, hname', htype', hlength, hindent']
  simp [FieldName.all]

/-- A text is no word for null where it stands without quotes. -/
theorem value_ofText (key text : String) : (Entry.ofText key text).style = .plain →
    text.isEmpty = false ∧ Yaml.isNull text = false := by
  intro h
  have hclear := Yaml.isAmbiguous_of_styleOf h
  simp only [Yaml.isAmbiguous, Bool.or_eq_false_iff] at hclear
  exact hclear.1.1.1.1

/-- The lines have all the fields. -/
theorem Valid.readEntries (h : s.Valid) :
    Fields.readEntries Fields.none [] ((FieldName.all.map s.entry).map Entry.nodes) =
      .ok ⟨some 1, some s.exitPolicy, some s.flagPrefix, some s.flagType, some s.minChainLength,
        some s.indent⟩ := by
  obtain ⟨-, -, hempty, hnull, hcount⟩ := count_eq h.length
  have hversion : Yaml.readUnsigned UInt32.size "1" = some 1 := by decide
  refine (Fields.readEntries_cons .version _ rfl (by simp)
    (fun _ => ⟨rfl, rfl⟩) (Fields.put_version hversion)).trans ?_
  refine (Fields.readEntries_cons .exitPolicy _ rfl (by simp) (value_ofText _ _)
    (Fields.put_exitPolicy s.exitPolicy)).trans ?_
  refine (Fields.readEntries_cons .flagPrefix _ rfl (by simp) (value_ofText _ _) rfl).trans ?_
  refine (Fields.readEntries_cons .flagType _ rfl (by simp) (value_ofText _ _) rfl).trans ?_
  refine (Fields.readEntries_cons .minChainLength _ rfl (by simp) (fun _ => ⟨hempty, hnull⟩)
    (Fields.put_minChainLength hcount)).trans ?_
  exact (Fields.readEntries_cons .indent _ rfl (by simp) (value_ofText _ _) rfl).trans rfl

/-- A text describes settings when its document has a version that can be read and valid fields. -/
theorem ofYaml_eq_ok : ofYaml text = .ok s ↔ ∃ document fields version,
    Yaml.readDocument text = .ok document ∧ Fields.ofNode document = .ok fields ∧
      fields.version = some version ∧ supportedVersions.contains version = true ∧
      fields.toSettings = s ∧ s.Valid := by
  rw [ofYaml]
  simp only [bind_eq_ok, mapError_eq_ok]
  constructor
  · rintro ⟨document, hdocument, fields, hfields, h⟩
    split at h
    · cases h
    · next version hversion =>
      split at h
      · cases h
      · next hsupported =>
        obtain ⟨_, hvalid, h⟩ := bind_eq_ok.1 h
        rw [pure_eq_ok, Except.ok.injEq] at h
        exact ⟨document, fields, version, hdocument, hfields, hversion, by simpa using hsupported, h,
          h ▸ validate_eq_ok.1 hvalid⟩
  · rintro ⟨document, fields, version, hdocument, hfields, hversion, hsupported, rfl, hvalid⟩
    refine ⟨document, hdocument, fields, hfields, ?_⟩
    simp only [hversion, hsupported, Bool.not_true, Bool.false_eq_true, if_false]
    exact bind_eq_ok.2 ⟨(), validate_eq_ok.2 hvalid, rfl⟩

/-- Valid settings are read back from their document. -/
theorem Valid.ofYaml_toYaml (h : s.Valid) : ofYaml s.toYaml = .ok s := by
  have hne : FieldName.all.map s.entry ≠ [] := by simp [FieldName.all]
  have hread := Yaml.readDocument_lines hne fun e he => by
    obtain ⟨name, -, rfl⟩ := List.mem_map.1 he
    exact h.readable name
  rw [← h.toYaml_eq] at hread
  exact ofYaml_eq_ok.2 ⟨_, _, 1, hread, h.readEntries, rfl, rfl, rfl, h⟩

/-- **Settings survive their document.** Valid settings are read back from the text that is written
for them. Settings that were read from any text are valid, so they survive as well. -/
theorem survive_yaml : (∀ s : Settings, s.validate = .ok () → ofYaml s.toYaml = .ok s) ∧
    ∀ (text : String) (s : Settings), ofYaml text = .ok s →
      s.validate = .ok () ∧ ofYaml s.toYaml = .ok s := by
  refine ⟨fun s h => (validate_eq_ok.1 h).ofYaml_toYaml, fun text s h => ?_⟩
  obtain ⟨-, -, -, -, -, -, -, -, hvalid⟩ := ofYaml_eq_ok.1 h
  exact ⟨validate_eq_ok.2 hvalid, hvalid.ofYaml_toYaml⟩

/-- Settings whose texts all need quotes: a word for null, blanks, a colon, a hash sign, a quote and
a line separator, and a lone tab. -/
def quoted : Settings := ⟨.transparent, "null", " it's: #\u2028x ", 64, "\t"⟩

/-- These settings survive, and so do those of a text that gives two fields only. -/
theorem survive_yaml_quoted : quoted.validate = .ok () ∧ ofYaml quoted.toYaml = .ok quoted ∧
    ofYaml "indent: '  '\nversion: 1" = .ok { standard with indent := "  " } ∧
    ofYaml (toYaml { standard with indent := "  " }) = .ok { standard with indent := "  " } := by
  have hvalid : quoted.validate = .ok () := by decide +kernel
  have hread : ofYaml "indent: '  '\nversion: 1" = .ok { standard with indent := "  " } := by
    decide +kernel
  exact ⟨hvalid, survive_yaml.1 quoted hvalid, hread, (survive_yaml.2 _ _ hread).2⟩

/-- Quotes stand around a text that would not be read back without them. -/
example : toYaml ⟨.transparent, "null", " it's: #\u2028x ", 64, "\t"⟩ = "version: 1\n" ++
    "exit_policy: transparent\nflag_prefix: 'null'\n" ++
    "flag_type: ' it''s: #\u2028  x '\nmin_chain_len: 64\nindent: \"\\t\"\n" := by
  decide +kernel

end Settings

end BranchExclusion
