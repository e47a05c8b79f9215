import BranchExclusion.Proofs.Yaml.Spacing

/-!
# Scalars in quotes are read back

* `readSingle_writeSingle`: a text in single quotes, where line and paragraph separators end lines;
* `readDouble_writeDouble`: any text in double quotes, where everything that is not shown is escaped.
-/

namespace BranchExclusion.Yaml

variable {c : Cursor} {cs w rest more text e : List Char} {fuel : ℕ}

/-! ### Single quotes -/

/-- A character between single quotes. -/
def quoteTwice (c : Char) : List Char := if c == '\'' then ['\'', '\''] else [c]

theorem singleBody_append (hw : ∀ c ∈ w, isBreak c = false) :
    singleBody false (w ++ rest) = w.flatMap quoteTwice ++ singleBody false rest := by
  induction w with
  | nil => rfl
  | cons c w ih =>
    have hc := hw c List.mem_cons_self
    rw [List.cons_append, singleBody, ih fun x hx => hw x (List.mem_cons_of_mem c hx)]
    simp [hc, quoteTwice]

theorem singleBody_blanks (n : ℕ) :
    singleBody false (List.replicate n ' ' ++ rest) =
      List.replicate n ' ' ++ singleBody false rest := by
  rw [singleBody_append (fun c hc => by rw [List.eq_of_mem_replicate hc]; rfl)]
  congr 1
  induction n with
  | zero => rfl
  | succ n ih => rw [List.replicate_succ, List.flatMap_cons, ih]; rfl

/-- Behind a line break the next line is indented. -/
theorem singleBody_true (h : ∀ c ∈ rest.head?, isBreak c = false) :
    singleBody true rest = lineIndent ++ singleBody false rest := by
  cases rest with
  | nil => rfl
  | cons c rest =>
    have hc := h c rfl
    simp [singleBody, hc]

theorem singleBody_separators {b : Char} {bs : List Char}
    (hb : ∀ x ∈ b :: bs, isSeparator x = true) (h : ∀ c ∈ rest.head?, isBreak c = false) :
    singleBody false (b :: bs ++ rest) = b :: bs ++ (lineIndent ++ singleBody false rest) := by
  have alone : ∀ (broken : Bool) (x : Char) (l : List Char), isSeparator x = true →
      singleBody broken (x :: l) = x :: singleBody true l := by
    intro broken x l hx
    have hn : x ≠ '\n' := by
      rintro rfl
      cases hx
    simp [singleBody, isBreak_of_isSeparator hx, hn]
  have further : ∀ bs : List Char, (∀ x ∈ bs, isSeparator x = true) →
      singleBody true (bs ++ rest) = bs ++ singleBody true rest := by
    intro bs hbs
    induction bs with
    | nil => rfl
    | cons x bs ih =>
      rw [List.cons_append, alone _ _ _ (hbs x List.mem_cons_self),
        ih fun y hy => hbs y (List.mem_cons_of_mem x hy)]
      rfl
  rw [List.cons_append, alone _ _ _ (hb b List.mem_cons_self),
    further bs fun x hx => hb x (List.mem_cons_of_mem b hx), singleBody_true h]
  rfl

/-- Where no gap starts the text, none starts what is written of it. -/
theorem endsGap_singleBody (rest : List Char)
    (h : ∀ c ∈ cs.head?, isSpace c = false ∧ isBreak c = false) :
    EndsGap (singleBody false cs ++ '\'' :: rest) := by
  cases cs with
  | nil =>
    rintro _ ⟨⟩
    exact ⟨rfl, rfl⟩
  | cons c cs =>
    have hc := h c rfl
    have hhead : (singleBody false (c :: cs) ++ '\'' :: rest).head? = some c := by
      rw [singleBody, if_neg (by simp [hc.2])]
      by_cases hquote : c = '\'' <;> simp [hquote]
    rw [EndsGap, hhead]
    rintro _ ⟨⟩
    exact hc

theorem length_le_singleBody (cs : List Char) : cs.length ≤ (singleBody false cs).length := by
  have go : ∀ broken, cs.length ≤ (singleBody broken cs).length := by
    induction cs with
    | nil => simp
    | cons c cs ih =>
      intro broken
      rw [singleBody]
      split
      · have hle := ih true
        split <;> simp <;> omega
      · have hle := ih false
        split <;> split <;> simp [lineIndent] <;> omega
  exact go false

theorem singleWord_of_isBreak {b : Char} (rest : List Char) (h : isBreak b = true) :
    singleWord (b :: rest) = ([], 0) := by
  have hquote : b ≠ '\'' := by
    rintro rfl
    cases h
  rw [singleWord, if_pos (by simp [h])]
  exact fun _ hb => absurd hb hquote

theorem singleWord_append (rest : List Char) (hw : ∀ c ∈ w, isSpace c = false ∧ isBreak c = false)
    (hstop : singleWord rest = ([], 0)) :
    singleWord (w.flatMap quoteTwice ++ rest) = (w, (w.flatMap quoteTwice).length) := by
  induction w with
  | nil => exact hstop
  | cons c w ih =>
    have hc := hw c List.mem_cons_self
    have hrest := ih fun x hx => hw x (List.mem_cons_of_mem c hx)
    by_cases hquote : c = '\''
    · subst hquote
      simp [quoteTwice, singleWord, hrest]
    · simp [quoteTwice, singleWord, hrest, hquote, hc]

/-- The last word, behind which the closing quote stands. -/
theorem readSingleFrom_last (hc : c.Within (e ++ '\'' :: rest))
    (hword : singleWord (e ++ '\'' :: rest) = (w, e.length)) :
    readSingleFrom (fuel + 1) text c = .ok (text ++ w, (c.skip e.length).skip 1) := by
  have hsees := hc.skip.sees '\''
  rw [readSingleFrom, hc.not_atDocumentMark, hc.rest_eq, hword]
  simp_all

/-- A word and the gap behind it. -/
theorem readSingleFrom_gap {x : Char} {gap : Gap} {c' : Cursor}
    (hc : c.Within (e ++ x :: rest)) (hword : singleWord (e ++ x :: rest) = (w, e.length))
    (hx : x ≠ '\'') (hgap : readGap none (c.skip e.length) = .ok (gap, c')) :
    readSingleFrom (fuel + 1) text c = readSingleFrom fuel (text ++ w ++ gap.fold) c' := by
  have hsees := hc.skip.sees '\''
  rw [readSingleFrom, hc.not_atDocumentMark, hc.rest_eq, hword]
  simp_all

/-- The rest of a scalar in single quotes is read as it was written. -/
theorem readSingleFrom_body (text : List Char) (fuel : ℕ) (h : Spaced isBreak cs)
    (hshown : ∀ c ∈ cs, isShown c = true ∧ c ≠ '\n')
    (hc : c.Within (singleBody false cs ++ '\'' :: '\n' :: more)) (hfuel : cs.length < fuel) :
    ∃ c', readSingleFrom fuel text c = .ok (text ++ cs, c') ∧ c'.Within ('\n' :: more) := by
  induction h generalizing text c fuel with
  | @word w hw =>
    obtain ⟨fuel, rfl⟩ := Nat.exists_eq_add_of_lt hfuel
    have hword := singleWord_append ('\'' :: '\n' :: more)
      (fun c hc => visible (hshown c hc).1 (hw c hc)) rfl
    have hbody : singleBody false w = w.flatMap quoteTwice := by
      rw [← List.append_nil w, singleBody_append (fun c hc => (hw c hc).2)]
      simp [singleBody]
    rw [hbody] at hc
    exact ⟨_, readSingleFrom_last hc hword, hc.skip.skip (w := ['\''])⟩
  | @blanks w rest n hw hstart h ih =>
    obtain ⟨fuel, rfl⟩ := Nat.exists_eq_add_of_le' (Nat.zero_lt_of_lt hfuel)
    simp only [List.mem_append] at hshown
    simp only [List.length_append, List.length_replicate] at hfuel
    have hends := endsGap_singleBody ('\n' :: more) fun c hc =>
      visible (hshown c (.inr (.inr (List.mem_of_mem_head? hc)))).1 (hstart c hc)
    have hword := singleWord_append
      (List.replicate (n + 1) ' ' ++ (singleBody false rest ++ '\'' :: '\n' :: more))
      (fun c hc => visible (hshown c (.inl hc)).1 (hw c hc)) rfl
    rw [singleBody_append (fun c hc => (hw c hc).2), singleBody_blanks, List.append_assoc,
      List.append_assoc] at hc
    have hskip := hc.skip.skip
    rw [List.length_replicate] at hskip
    obtain ⟨c', hread, hc'⟩ := ih (text ++ w ++ List.replicate (n + 1) ' ') fuel
      (fun c hc => hshown c (.inr (.inr hc))) hskip (by omega)
    refine ⟨c', ?_, hc'⟩
    rw [readSingleFrom_gap hc hword (by decide) (readGap_blanks hc.skip hends), Gap.fold, hread]
    simp
  | @breaks w bs rest b hw hb hstart h ih =>
    obtain ⟨fuel, rfl⟩ := Nat.exists_eq_add_of_le' (Nat.zero_lt_of_lt hfuel)
    simp only [List.mem_append] at hshown
    simp only [List.length_append, List.length_cons] at hfuel
    have hsep : ∀ c ∈ b :: bs, isSeparator c = true := fun c hc =>
      have hc' := hshown c (.inr (.inl hc))
      isSeparator_of_isShown hc'.1 (hb c hc) hc'.2
    have hbreak := hb b List.mem_cons_self
    have hends := endsGap_singleBody ('\n' :: more) fun c hc =>
      visible (hshown c (.inr (.inr (List.mem_of_mem_head? hc)))).1 (hstart c hc)
    have hword := singleWord_append
      (b :: bs ++ (lineIndent ++ (singleBody false rest ++ '\'' :: '\n' :: more)))
      (fun c hc => visible (hshown c (.inl hc)).1 (hw c hc)) (singleWord_of_isBreak _ hbreak)
    rw [singleBody_append (fun c hc => (hw c hc).2),
      singleBody_separators hsep fun c hc => (hstart c hc).2] at hc
    simp only [List.append_assoc] at hc
    obtain ⟨c₁, hgap, hc₁⟩ := readGap_separators hc.skip.rest_eq hsep hends
    obtain ⟨c', hread, hc'⟩ := ih (text ++ w ++ b :: bs) fuel
      (fun c hc => hshown c (.inr (.inr hc))) hc₁ (by omega)
    refine ⟨c', ?_, hc'⟩
    have hquote : b ≠ '\'' := by
      rintro rfl
      cases hbreak
    rw [readSingleFrom_gap hc hword hquote hgap,
      fold_separators bs (hsep b List.mem_cons_self), hread]
    simp

/-- **A text in single quotes is read back**, when it can be written so and has no line feed. -/
theorem readSingle_writeSingle (h : allowsSingle cs = true) (hn : '\n' ∉ cs)
    (hc : c.Within (writeSingle cs ++ '\n' :: more)) :
    ∃ c', readSingle c = .ok (cs, c') ∧ c'.Within ('\n' :: more) := by
  simp only [allowsSingle, Bool.and_eq_true, Bool.not_eq_true', List.all_eq_true] at h
  obtain ⟨⟨hshown, hbehind⟩, hbefore⟩ := h
  have hquote : c.Within (['\''] ++ (singleBody false cs ++ '\'' :: '\n' :: more)) := by
    simpa [writeSingle] using hc
  refine readSingleFrom_body [] _ (spaced cs hbefore hbehind)
    (fun c hc => ⟨hshown c hc, fun heq => hn (heq ▸ hc)⟩) hquote.skip ?_
  have hle := length_le_singleBody cs
  simp only [hquote.rest_eq, List.length_append, List.length_cons]
  omega

/-! ### Escapes -/

theorem hexValue?_hexDigit {n : ℕ} (h : n < 16) : hexValue? (hexDigit n) = some n := by
  interval_cases n <;> rfl

/-- One more digit behind `width` others. -/
theorem hexDigits_succ {ds : List Char} {d : Char} {width value v : ℕ} (hwidth : ds.length = width)
    (hd : hexValue? d = some v) (h : hexDigits width (ds ++ d :: rest) = some value) :
    hexDigits (width + 1) (ds ++ d :: rest) = some (16 * value + v) := by
  induction ds generalizing width value with
  | nil =>
    subst hwidth
    cases h
    simp [hexDigits, hd]
  | cons x ds ih =>
    subst hwidth
    simp only [List.length_cons, List.cons_append, hexDigits, Option.bind_eq_bind,
      Option.bind_eq_some_iff, Option.pure_def, Option.some.injEq] at h
    obtain ⟨u, hu, r, hr, rfl⟩ := h
    rw [List.cons_append, hexDigits, hu, List.length_cons, ih rfl hr]
    simp only [Option.bind_eq_bind, Option.bind_some, Option.pure_def, Option.some.injEq]
    have hpow : Nat.pow 16 (ds.length + 1) = Nat.pow 16 ds.length * 16 := rfl
    rw [hpow]
    ring

theorem length_hexText (width n : ℕ) : (hexText width n).length = width := by
  induction width generalizing n with
  | zero => rfl
  | succ width ih => simp [hexText, ih]

/-- Written digits stand for the number again, when they are enough for it. -/
theorem hexDigits_hexText (width n : ℕ) (rest : List Char) (h : n < 16 ^ width) :
    hexDigits width (hexText width n ++ rest) = some n := by
  induction width generalizing n rest with
  | zero => simp_all [hexDigits]
  | succ width ih =>
    have hdigit := hexValue?_hexDigit (Nat.mod_lt n (by decide : 0 < 16))
    have hfront := ih (n / 16) (hexDigit (n % 16) :: rest) (by rw [Nat.pow_succ] at h; omega)
    have hboth := hexDigits_succ (length_hexText width (n / 16)) hdigit hfront
    rw [Nat.div_add_mod] at hboth
    simpa [hexText] using hboth

theorem charOfCode?_toNat (c : Char) : charOfCode? c.toNat = some c := by
  have hvalid : c.toNat.isValidChar := c.valid
  rw [charOfCode?, dif_pos hvalid]
  rfl

theorem simpleEscape?_escapeLetter {c letter : Char} (h : escapeLetter? c = some letter) :
    simpleEscape? letter = some c ∧ isBreak letter = false := by
  unfold escapeLetter? at h
  split at h <;> cases h <;> exact ⟨rfl, rfl⟩

/-- The word goes on behind a code of `width` digits. -/
theorem doubleWord_code {e : Char} {width : ℕ} (fuel : ℕ) (rest : List Char)
    (hsimple : simpleEscape? e = none) (hbreak : isBreak e = false)
    (hwidth : escapeWidth? e = some width) (c : Char) (hc : c.toNat < 16 ^ width) :
    doubleWord (fuel + 1) ('\\' :: e :: (hexText width c.toNat ++ rest)) = (do
      let (word, n, stop) ← doubleWord fuel rest
      return (c :: word, n + width + 2, stop)) := by
  have hdrop : (hexText width c.toNat ++ rest).drop width = rest := by
    rw [List.drop_append_of_le_length (length_hexText width _).ge, List.drop_of_length_le]
    · rfl
    · exact (length_hexText width _).le
  have hslash : isBreak '\\' = false := rfl
  rw [doubleWord]
  simp [hslash, hsimple, hbreak, hwidth, hexDigits_hexText width _ _ hc, charOfCode?_toNat, hdrop,
    isSpace]

theorem escapeText_eq_cons (c : Char) : ∃ l, escapeText c = '\\' :: l := by
  unfold escapeText
  split
  · exact ⟨_, rfl⟩
  · split
    · exact ⟨_, rfl⟩
    · split <;> exact ⟨_, rfl⟩

/-- The word goes on behind an escape. -/
theorem doubleWord_escape (fuel : ℕ) (c : Char) (rest : List Char) :
    doubleWord (fuel + 1) (escapeText c ++ rest) = (do
      let (word, n, stop) ← doubleWord fuel rest
      return (c :: word, n + (escapeText c).length, stop)) := by
  have hcode : c.toNat < 16 ^ 8 := by
    have hvalid : c.toNat.isValidChar := c.valid
    have hbound : c.toNat < 0x110000 := hvalid.elim (fun h => by omega) fun h => h.2
    omega
  unfold escapeText
  split
  · next letter hletter =>
    obtain ⟨hsimple, hbreak⟩ := simpleEscape?_escapeLetter hletter
    have hslash : isBreak '\\' = false := rfl
    simp only [List.cons_append, List.nil_append]
    rw [doubleWord]
    simp [hslash, hsimple, hbreak, isSpace]
  · split
    · next hc =>
      simpa [length_hexText] using doubleWord_code fuel rest rfl rfl rfl c hc
    · split
      · next hc =>
        simpa [length_hexText] using doubleWord_code fuel rest rfl rfl rfl c hc
      · simpa [length_hexText] using doubleWord_code fuel rest rfl rfl rfl c hcode

/-! ### Double quotes -/

/-- A character between double quotes. -/
def escaped (c : Char) : List Char := if needsEscape c then escapeText c else [c]

theorem of_not_needsEscape {c : Char} (h : needsEscape c = false) :
    isShown c = true ∧ isBreak c = false ∧ c ≠ '"' ∧ c ≠ '\\' := by
  simp only [needsEscape, Bool.or_eq_false_iff, Bool.not_eq_false', beq_eq_false_iff_ne] at h
  exact ⟨h.1.1.1, h.1.1.2, h.1.2, h.2⟩

theorem writeDouble_eq (cs : List Char) : writeDouble cs = '"' :: cs.flatMap escaped ++ ['"'] := rfl

theorem doubleWord_escaped (fuel : ℕ) (rest : List Char) {c : Char} (hc : c ≠ ' ') :
    doubleWord (fuel + 1) (escaped c ++ rest) = (do
      let (word, n, stop) ← doubleWord fuel rest
      return (c :: word, n + (escaped c).length, stop)) := by
  unfold escaped
  split
  · exact doubleWord_escape fuel c rest
  · next hplain =>
    obtain ⟨hshown, hbreak, hquote, hslash⟩ := of_not_needsEscape (Bool.eq_false_iff.2 hplain)
    simp [doubleWord, isSpace_of_isShown hshown hc, hbreak, hquote, hslash]

/-- A word is read up to a blank or the closing quote. -/
theorem doubleWord_append {x : Char} (fuel : ℕ) (rest : List Char) (hw : ∀ c ∈ w, c ≠ ' ')
    (hx : x = ' ' ∨ x = '"') (hfuel : w.length ≤ fuel) :
    doubleWord fuel (w.flatMap escaped ++ x :: rest) =
      .ok (w, (w.flatMap escaped).length, .visible) := by
  induction w generalizing fuel with
  | nil =>
    cases fuel with
    | zero => rfl
    | succ fuel => rcases hx with rfl | rfl <;> rfl
  | cons c w ih =>
    obtain ⟨fuel, rfl⟩ := Nat.exists_eq_add_of_le' (Nat.zero_lt_of_lt hfuel)
    have hrest := ih fuel (fun y hy => hw y (List.mem_cons_of_mem c hy))
      (Nat.le_of_succ_le_succ hfuel)
    rw [List.flatMap_cons, List.append_assoc, doubleWord_escaped _ _ (hw c List.mem_cons_self),
      hrest]
    simp [Nat.add_comm]

theorem flatMap_escaped_blanks (n : ℕ) :
    (List.replicate n ' ').flatMap escaped = List.replicate n ' ' := by
  induction n with
  | zero => rfl
  | succ n ih => rw [List.replicate_succ, List.flatMap_cons, ih]; rfl

/-- Where no blank starts the text, no gap starts what is written of it. -/
theorem endsGap_escaped (rest : List Char) (h : ∀ c ∈ cs.head?, c ≠ ' ') :
    EndsGap (cs.flatMap escaped ++ '"' :: rest) := by
  cases cs with
  | nil =>
    rintro _ ⟨⟩
    exact ⟨rfl, rfl⟩
  | cons c cs =>
    unfold escaped
    rw [List.flatMap_cons]
    split
    · obtain ⟨l, hl⟩ := escapeText_eq_cons c
      rw [hl]
      rintro _ ⟨⟩
      exact ⟨rfl, rfl⟩
    · next hplain =>
      obtain ⟨hshown, hbreak, -⟩ := of_not_needsEscape (Bool.eq_false_iff.2 hplain)
      rintro _ ⟨⟩
      exact visible hshown ⟨h c rfl, hbreak⟩

theorem length_le_escaped (cs : List Char) : cs.length ≤ (cs.flatMap escaped).length := by
  induction cs with
  | nil => exact Nat.le_refl 0
  | cons c cs ih =>
    have hpos : 0 < (escaped c).length := by
      unfold escaped
      split
      · obtain ⟨l, hl⟩ := escapeText_eq_cons c
        simp [hl]
      · exact Nat.one_pos
    rw [List.flatMap_cons, List.length_append, List.length_cons]
    omega

/-- The next word in the text. -/
theorem doubleWord_within {x : Char} (hw : ∀ c ∈ w, c ≠ ' ') (hx : x = ' ' ∨ x = '"')
    (hc : c.Within (w.flatMap escaped ++ x :: rest)) :
    doubleWord (c.rest.length + 1) c.rest = .ok (w, (w.flatMap escaped).length, .visible) := by
  have hle := length_le_escaped w
  rw [hc.rest_eq, doubleWord_append _ rest hw hx]
  rw [List.length_append]
  omega

/-- The last word, behind which the closing quote stands. -/
theorem readDoubleFrom_last (fuel : ℕ) (text : List Char) (hw : ∀ c ∈ w, c ≠ ' ')
    (hc : c.Within (w.flatMap escaped ++ '"' :: rest)) :
    readDoubleFrom (fuel + 1) text c =
      .ok (text ++ w, (c.skip (w.flatMap escaped).length).skip 1) := by
  have hsees := hc.skip.sees '"'
  rw [readDoubleFrom, hc.not_atDocumentMark, doubleWord_within hw (.inr rfl) hc]
  simp_all [hc.rest_eq]

/-- A word and the blanks behind it. -/
theorem readDoubleFrom_gap (fuel : ℕ) (text : List Char) {gap : Gap} {c' : Cursor}
    (hw : ∀ c ∈ w, c ≠ ' ') (hc : c.Within (w.flatMap escaped ++ ' ' :: rest))
    (hgap : readGap none (c.skip (w.flatMap escaped).length) = .ok (gap, c')) :
    readDoubleFrom (fuel + 1) text c = readDoubleFrom fuel (text ++ w ++ gap.fold) c' := by
  have hsees := hc.skip.sees '"'
  rw [readDoubleFrom, hc.not_atDocumentMark, doubleWord_within hw (.inl rfl) hc]
  simp_all [hc.rest_eq]

/-- The rest of a scalar in double quotes is read as it was written. -/
theorem readDoubleFrom_body (text : List Char) (fuel : ℕ) (h : Spaced (fun _ => false) cs)
    (hc : c.Within (cs.flatMap escaped ++ '"' :: '\n' :: more)) (hfuel : cs.length < fuel) :
    ∃ c', readDoubleFrom fuel text c = .ok (text ++ cs, c') ∧ c'.Within ('\n' :: more) := by
  induction h generalizing text c fuel with
  | @word w hw =>
    obtain ⟨fuel, rfl⟩ := Nat.exists_eq_add_of_lt hfuel
    exact ⟨_, readDoubleFrom_last _ _ (fun c hc => (hw c hc).1) hc, hc.skip.skip (w := ['"'])⟩
  | @blanks w rest n hw hstart h ih =>
    obtain ⟨fuel, rfl⟩ := Nat.exists_eq_add_of_le' (Nat.zero_lt_of_lt hfuel)
    simp only [List.length_append, List.length_replicate] at hfuel
    have hends := endsGap_escaped ('\n' :: more) fun c hc => (hstart c hc).1
    rw [List.flatMap_append, List.flatMap_append, flatMap_escaped_blanks, List.append_assoc,
      List.append_assoc] at hc
    have hskip := hc.skip.skip
    rw [List.length_replicate] at hskip
    obtain ⟨c', hread, hc'⟩ := ih (text ++ w ++ List.replicate (n + 1) ' ') fuel hskip (by omega)
    refine ⟨c', ?_, hc'⟩
    rw [readDoubleFrom_gap _ _ (fun c hc => (hw c hc).1) hc (readGap_blanks hc.skip hends),
      Gap.fold, hread]
    simp
  | breaks b _ hb =>
    cases hb b List.mem_cons_self

/-- **Any text in double quotes is read back.** -/
theorem readDouble_writeDouble (hc : c.Within (writeDouble cs ++ '\n' :: more)) :
    ∃ c', readDouble c = .ok (cs, c') ∧ c'.Within ('\n' :: more) := by
  have hquote : c.Within (['"'] ++ (cs.flatMap escaped ++ '"' :: '\n' :: more)) := by
    simpa [writeDouble_eq] using hc
  refine readDoubleFrom_body [] _ (spaced_blanks cs) hquote.skip ?_
  have hle := length_le_escaped cs
  simp only [hquote.rest_eq, List.length_append, List.length_cons]
  omega

end BranchExclusion.Yaml
