import BranchExclusion.Proofs.Yaml.Mapping

/-!
# Texts as values of a mapping

* `styleOf`: the style in which a text without line feeds is written, and `reads_writeText`: the text
  is read back in this style;
* `Entry.ofPlain`, `Entry.ofText`: the line for what needs no quotes, and for any text;
* `Entry.line_ofPlain`, `Entry.line_ofText`: these are the lines that are written.
-/

namespace BranchExclusion.Yaml

open Tokenizer (Reads)

variable {cs : List Char} {key text : String}

/-! ### The characters that are written -/

theorem isShown_singleBody (h : ∀ c ∈ cs, isShown c = true) (broken : Bool) :
    ∀ c ∈ singleBody broken cs, isShown c = true := by
  have hindent : ∀ c ∈ lineIndent, isShown c = true := List.all_eq_true.1 (by decide)
  induction cs generalizing broken with
  | nil =>
    cases broken
    · rintro c ⟨⟩
    · exact hindent
  | cons x cs ih =>
    have hx := h x List.mem_cons_self
    have hrest := ih fun c hc => h c (List.mem_cons_of_mem x hc)
    have hquote : isShown '\'' = true := rfl
    have hfeed : isShown '\n' = true := rfl
    intro c hc
    rw [singleBody] at hc
    split at hc
    · rcases List.mem_append.1 hc with hc | hc
      · split at hc <;> simp_all
      · exact hrest true c hc
    · rcases List.mem_append.1 hc with hc | hc
      · rcases List.mem_append.1 hc with hc | hc
        · split at hc
          · exact hindent c hc
          · cases hc
        · split at hc <;> simp_all
      · exact hrest false c hc

theorem isShown_hexText (width n : ℕ) : ∀ c ∈ hexText width n, isShown c = true := by
  induction width generalizing n with
  | zero => rintro c ⟨⟩
  | succ width ih =>
    have hdigit : ∀ d < 16, isShown (hexDigit d) = true := by decide
    intro c hc
    rcases List.mem_append.1 hc with hc | hc
    · exact ih _ c hc
    · rw [List.mem_singleton.1 hc]
      exact hdigit _ (Nat.mod_lt n (by decide))

theorem isShown_escapeText (c : Char) : ∀ x ∈ escapeText c, isShown x = true := by
  have hletter : ∀ letter, escapeLetter? c = some letter → isShown letter = true := by
    intro letter h
    unfold escapeLetter? at h
    split at h <;> cases h <;> rfl
  have hcode : ∀ (e : Char) (width n : ℕ), isShown e = true →
      ∀ x ∈ ['\\', e] ++ hexText width n, isShown x = true := by
    intro e width n he x hx
    rcases List.mem_append.1 hx with hx | hx
    · rcases List.mem_cons.1 hx with rfl | hx
      · rfl
      · rwa [List.mem_singleton.1 hx]
    · exact isShown_hexText width n x hx
  unfold escapeText
  split
  · next letter hl =>
    intro x hx
    rcases List.mem_cons.1 hx with rfl | hx
    · rfl
    · rw [List.mem_singleton.1 hx]
      exact hletter letter hl
  · split
    · exact hcode 'x' 2 _ rfl
    · split
      · exact hcode 'u' 4 _ rfl
      · exact hcode 'U' 8 _ rfl

theorem isShown_escaped (c : Char) : ∀ x ∈ escaped c, isShown x = true := by
  unfold escaped
  split
  · exact isShown_escapeText c
  · next hplain =>
    intro x hx
    rw [List.mem_singleton.1 hx]
    exact (of_not_needsEscape (Bool.eq_false_iff.2 hplain)).1

/-! ### Texts -/

/-- The style in which a text without line feeds is written. -/
def styleOf (text : String) : ScalarStyle :=
  if !isAmbiguous text && allowsPlain text.toList then .plain
  else if allowsSingle text.toList then .singleQuoted
  else .doubleQuoted

theorem isAmbiguous_of_styleOf (h : styleOf text = .plain) : isAmbiguous text = false := by
  unfold styleOf at h
  split at h
  · next hplain =>
    simp only [Bool.and_eq_true, Bool.not_eq_true'] at hplain
    exact hplain.1
  · split at h <;> cases h

/-- A property of what is written, case by case. -/
theorem writeText_cases {P : List Char → ScalarStyle → Prop} (hn : '\n' ∉ text.toList)
    (plain : isAmbiguous text = false → allowsPlain text.toList = true → P text.toList .plain)
    (single : allowsSingle text.toList = true → P (writeSingle text.toList) .singleQuoted)
    (double : P (writeDouble text.toList) .doubleQuoted) : P (writeText text) (styleOf text) := by
  have hcontains : text.toList.contains '\n' = false := by simpa using hn
  unfold writeText styleOf
  simp only [hcontains, Bool.false_eq_true, if_false]
  split
  · next hplain =>
    simp only [Bool.and_eq_true, Bool.not_eq_true'] at hplain
    exact plain hplain.1 hplain.2
  · split
    · next hsingle => exact single hsingle
    · exact double

/-- **A text is read back**, as long as it has no line feed. -/
theorem reads_writeText (hn : '\n' ∉ text.toList) : Reads (writeText text) (styleOf text) text := by
  refine writeText_cases (P := fun written style => Reads written style text) hn
    (fun hclear h => ?_) (fun h => ?_) ?_
  · have hne : text.toList ≠ [] := by
      intro hempty
      simp [isAmbiguous, String.toList_eq_nil_iff.1 hempty] at hclear
    simpa using Tokenizer.reads_plain h hne
  · simpa using Tokenizer.reads_writeSingle h hn
  · simpa using Tokenizer.reads_writeDouble text.toList

theorem isAllowed_writeText (hn : '\n' ∉ text.toList) :
    ∀ c ∈ writeText text, isAllowed c = true := by
  refine writeText_cases (P := fun written _ => ∀ c ∈ written, isAllowed c = true) hn
    (fun _ h c hc => ?_) (fun h c hc => ?_) fun c hc => ?_
  all_goals refine isAllowed_of_isShown ?_
  · exact ((plainRest_of_allowsPlain h (List.ne_nil_of_mem hc)).shown c hc).1
  · have hshown : ∀ c ∈ text.toList, isShown c = true := by
      simp only [allowsSingle, Bool.and_eq_true, List.all_eq_true] at h
      exact h.1.1
    simp only [writeSingle, List.mem_append, List.mem_singleton] at hc
    rcases hc with (rfl | hc) | rfl
    · rfl
    · exact isShown_singleBody hshown false c hc
    · rfl
  · simp only [writeDouble_eq, List.cons_append, List.mem_cons, List.mem_append, List.mem_flatMap,
      List.not_mem_nil, or_false] at hc
    rcases hc with rfl | ⟨d, -, hc⟩ | rfl
    · rfl
    · exact isShown_escaped d c hc
    · rfl

theorem not_endsWithBreak_of_allowsPlain (h : allowsPlain cs = true) : endsWithBreak cs = false := by
  rw [endsWithBreak, Option.any_eq_false]
  intro c hc
  have hmem := List.mem_of_getLast? hc
  simpa using ((plainRest_of_allowsPlain h (List.ne_nil_of_mem hmem)).shown c hmem).2

/-- What is written does not end its line itself. -/
theorem not_endsWithBreak_writeText (hn : '\n' ∉ text.toList) :
    endsWithBreak (writeText text) = false := by
  refine writeText_cases (P := fun written _ => endsWithBreak written = false) hn
    (fun _ h => not_endsWithBreak_of_allowsPlain h) (fun _ => ?_) ?_
  · rw [endsWithBreak, writeSingle, List.getLast?_concat]
    rfl
  · rw [endsWithBreak, writeDouble, List.getLast?_concat]
    rfl

/-! ### Lines -/

namespace Entry

/-- The line for a value that stands as it is. -/
def ofPlain (key text : String) : Entry := ⟨key, text.toList, .plain, text⟩

/-- The line for a text. -/
def ofText (key text : String) : Entry := ⟨key, writeText text, styleOf text, text⟩

theorem readable_ofPlain (hkey : IsKey key) (h : allowsPlain text.toList = true)
    (hne : text.toList ≠ []) : (ofPlain key text).Readable where
  key := hkey
  allowed c hc := isAllowed_of_isShown ((plainRest_of_allowsPlain h hne).shown c hc).1
  value := by simpa [ofPlain] using Tokenizer.reads_plain h hne

theorem readable_ofText (hkey : IsKey key) (hn : '\n' ∉ text.toList) :
    (ofText key text).Readable where
  key := hkey
  allowed := isAllowed_writeText hn
  value := reads_writeText hn

theorem line_ofPlain (h : allowsPlain text.toList = true) :
    writeEntry key text.toList = (ofPlain key text).line := by
  simp [writeEntry, not_endsWithBreak_of_allowsPlain h, line, ofPlain]

theorem line_ofText (hn : '\n' ∉ text.toList) :
    writeEntry key (writeText text) = (ofText key text).line := by
  simp [writeEntry, not_endsWithBreak_writeText hn, line, ofText]

end Entry

end BranchExclusion.Yaml
