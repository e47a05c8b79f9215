import BranchExclusion.Proofs.Yaml.Spacing

/-!
# Plain scalars are read back

* `hasIndicator_of_allowsPlain`: the text has no indicator, its first character included;
* `readPlain_value`: a text that needs no quotes, up to the end of its line;
* `readPlain_key`: a word up to the colon behind it.
-/

namespace BranchExclusion.Yaml

variable {c : Cursor} {cs w rest more text : List Char} {gap : Gap} {least : Int}

/-! ### Indicators -/

theorem hasIndicator_of_append {before x : Char} (h : hasIndicator before (w ++ x :: rest) = false) :
    hasIndicator x rest = false := by
  induction w generalizing before with
  | nil =>
    simp only [List.nil_append, hasIndicator, Bool.or_eq_false_iff] at h
    exact h.2
  | cons y w ih =>
    simp only [List.cons_append, hasIndicator, Bool.or_eq_false_iff] at h
    exact ih h.2

/-- A word goes on behind each of its colons. -/
theorem endsBefore_of_hasIndicator {before : Char}
    (h : hasIndicator before (w ++ ':' :: rest) = false) : endsBefore rest = false := by
  induction w generalizing before with
  | nil =>
    simp only [List.nil_append, hasIndicator, Bool.or_eq_false_iff] at h
    simpa using h.1.1
  | cons y w ih =>
    simp only [List.cons_append, hasIndicator, Bool.or_eq_false_iff] at h
    exact ih h.2

theorem endsWord_append (tail : List Char) (h : endsBefore rest = false) :
    endsWord (rest ++ tail) = false := by
  cases rest with
  | nil => cases h
  | cons d rest =>
    simp only [endsBefore, Bool.or_eq_false_iff] at h
    simp [endsWord, h.1]

/-- What a text without quotes looks like from the start of one of its words on. -/
structure PlainRest (cs : List Char) : Prop where
  ne_nil : cs ≠ []
  shown : ∀ c ∈ cs, isShown c = true ∧ isBreak c = false
  indicator : hasIndicator ' ' cs = false
  head : cs.head? ≠ some ' '
  last : cs.getLast? ≠ some ' '

theorem plainRest_of_allowsPlain (h : allowsPlain cs = true) (hne : cs ≠ []) : PlainRest cs := by
  cases cs with
  | nil => exact absurd rfl hne
  | cons d cs =>
    simp only [allowsPlain, Bool.not_eq_true', Bool.or_eq_false_iff, startsBadly,
      List.any_eq_false, beq_eq_false_iff_ne] at h
    obtain ⟨⟨⟨⟨⟨-, hlead, hcolon⟩, hindicator⟩, hshown⟩, hhead⟩, hlast⟩ := h
    refine ⟨hne, fun c hc => by simpa using hshown c hc, ?_, by simpa using hhead, hlast⟩
    have hhash : d ≠ '#' := by
      rintro rfl
      cases hlead
    have hends : (d == ':' && endsBefore cs) = false := by
      by_cases hd : d = ':'
      · subst hd
        simpa using hcolon
      · simp [hd]
    simp [hasIndicator, hindicator, hends, hhash]

theorem PlainRest.head_ne_hash (h : PlainRest cs) : cs.head? ≠ some '#' := by
  obtain ⟨d, cs, rfl⟩ := List.exists_cons_of_ne_nil h.ne_nil
  rintro ⟨⟩
  have hindicator := h.indicator
  simp [hasIndicator, endsBefore, isSpace] at hindicator

/-- Behind a word and blanks the text goes on in the same way. -/
theorem PlainRest.behind {n : ℕ} (h : PlainRest (w ++ (List.replicate (n + 1) ' ' ++ rest)))
    (hstart : rest.head? ≠ some ' ') : w ≠ [] ∧ PlainRest rest := by
  have hne : rest ≠ [] := by
    rintro rfl
    refine h.last ?_
    rw [List.append_nil, List.replicate_succ', ← List.append_assoc, List.getLast?_concat]
  refine ⟨?_, hne, fun c hc => h.shown c (by simp [hc]), ?_, hstart, ?_⟩
  · rintro rfl
    exact h.head rfl
  · have hindicator := h.indicator
    rw [List.replicate_succ', List.append_assoc, ← List.append_assoc] at hindicator
    exact hasIndicator_of_append hindicator
  · have hlast := h.last
    rwa [List.getLast?_append_of_ne_nil _ (by simp), List.getLast?_append_of_ne_nil _ hne] at hlast

/-! ### Words -/

/-- A word is read up to where it stops, when none of its colons ends it. -/
theorem plainWord_append (hw : ∀ c ∈ w, isSpace c = false ∧ isBreak c = false)
    (hcolon : ∀ u v, w = u ++ ':' :: v → endsWord (v ++ rest) = false)
    (hstop : plainWord false rest = .ok []) : plainWord false (w ++ rest) = .ok w := by
  induction w with
  | nil => exact hstop
  | cons c w ih =>
    obtain ⟨hspace, hbreak⟩ := hw c List.mem_cons_self
    have hrest := ih (fun x hx => hw x (List.mem_cons_of_mem c hx))
      fun u v huv => hcolon (c :: u) v (by rw [huv]; rfl)
    have hends : (c == ':' && endsWord (w ++ rest)) = false := by
      by_cases hc : c = ':'
      · subst hc
        simpa using hcolon [] w rfl
      · simp [hc]
    rw [List.cons_append, plainWord, hrest]
    simp [hspace, hbreak, hends, Except.map]

/-- The word of a text that needs no quotes ends at white space. -/
theorem plainWord_of_hasIndicator {before : Char} (tail : List Char)
    (h : hasIndicator before (w ++ rest) = false)
    (hw : ∀ c ∈ w, isSpace c = false ∧ isBreak c = false) (hstop : endsWord (rest ++ tail) = true) :
    plainWord false (w ++ (rest ++ tail)) = .ok w := by
  refine plainWord_append hw (fun u v huv => ?_) ?_
  · subst huv
    rw [← List.append_assoc]
    have hcolon : hasIndicator before (u ++ ':' :: (v ++ rest)) = false := by simpa using h
    exact endsWord_append tail (endsBefore_of_hasIndicator hcolon)
  · generalize rest ++ tail = l at hstop
    cases l with
    | nil => rfl
    | cons d l =>
      rw [endsWord] at hstop
      rw [plainWord, if_pos hstop]

/-! ### Values -/

/-- A word and the gap behind it. The scalar ends where the next line does not go on. -/
theorem readPlainFrom_word {x : Char} {space : Gap} {c' : Cursor} (fuel : ℕ) (text : List Char)
    (gap : Gap) (hc : c.Within (w ++ x :: rest)) (hword : plainWord false (w ++ x :: rest) = .ok w)
    (hne : w ≠ []) (hhash : w.head? ≠ some '#') (hx : (isSpace x || isBreak x) = true)
    (hgap : readGap (some least) (c.skip w.length) = .ok (space, c')) :
    readPlainFrom false least (fuel + 1) text gap c =
      if (c'.col : Int) < least then .ok ⟨text ++ gap.fold ++ w, c', space.isBreaks⟩
      else readPlainFrom false least fuel (text ++ gap.fold ++ w) space c' := by
  have hsees : c.sees '#' = false := by
    rw [hc.sees, beq_eq_false_iff_ne, List.head?_append_of_ne_nil _ hne]
    exact hhash
  have hwhite : ¬ (isSpace x = false ∧ isBreak x = false) := by simpa [imp_iff_not_or] using hx
  rw [readPlainFrom, hc.not_atDocumentMark, hsees, hc.rest_eq, hword]
  simp [hne, hc.skip.rest_eq, hwhite, hgap]

/-- The rest of a plain scalar is read as it is, up to the end of its line. -/
theorem readPlainFrom_text (fuel : ℕ) (text : List Char) (gap : Gap)
    (h : Spaced (fun _ => false) cs) (hplain : PlainRest cs) (hc : c.Within (cs ++ '\n' :: more))
    (hmore : EndsGap more) (hfuel : cs.length < fuel) :
    ∃ c', readPlainFrom false 1 fuel text gap c = .ok ⟨text ++ gap.fold ++ cs, c', true⟩ ∧
      c'.rest = more ∧ c'.col = 0 := by
  induction h generalizing text gap c fuel with
  | @word w hw =>
    obtain ⟨fuel, rfl⟩ := Nat.exists_eq_add_of_lt hfuel
    have hword : plainWord false (w ++ ([] ++ '\n' :: more)) = .ok w :=
      plainWord_of_hasIndicator _ ((List.append_nil w).symm ▸ hplain.indicator)
        (fun c hc => visible (hplain.shown c hc).1 ⟨(hw c hc).1, (hplain.shown c hc).2⟩) rfl
    have hgap : readGap (some 1) (c.skip w.length) = _ := readGap_lineFeed hc.skip.rest_eq hmore
    exact ⟨_, readPlainFrom_word _ text gap hc hword hplain.ne_nil hplain.head_ne_hash rfl hgap,
      rfl, rfl⟩
  | @blanks w rest n hw hstart h ih =>
    obtain ⟨fuel, rfl⟩ := Nat.exists_eq_add_of_le' (Nat.zero_lt_of_lt hfuel)
    simp only [List.length_append, List.length_replicate] at hfuel
    obtain ⟨hne, hrest⟩ := hplain.behind fun hhead => (hstart ' ' hhead).1 rfl
    have hshown : ∀ c ∈ w, isShown c = true ∧ isBreak c = false :=
      fun c hc => hplain.shown c (List.mem_append_left _ hc)
    have hword := plainWord_of_hasIndicator ('\n' :: more) hplain.indicator
      (fun c hc => visible (hshown c hc).1 ⟨(hw c hc).1, (hshown c hc).2⟩) rfl
    have hends : EndsGap (rest ++ '\n' :: more) := by
      intro d hd
      rw [List.head?_append_of_ne_nil _ hrest.ne_nil] at hd
      obtain ⟨hd', hbreak⟩ := hrest.shown d (List.mem_of_mem_head? hd)
      exact visible hd' ⟨(hstart d hd).1, hbreak⟩
    rw [List.append_assoc] at hword
    rw [List.append_assoc, List.append_assoc] at hc
    have hgap : readGap (some 1) (c.skip w.length) = _ := readGap_blanks hc.skip hends
    have hskip := hc.skip.skip
    rw [List.length_replicate] at hskip
    obtain ⟨c', hread, hc'⟩ := ih fuel (text ++ gap.fold ++ w) (.spaces (List.replicate (n + 1) ' '))
      hrest hskip (by omega)
    refine ⟨c', ?_, hc'⟩
    have hcol : ¬ ((((c.skip w.length).skip (n + 1)).col : ℕ) : Int) < 1 := by
      have := hskip.col_pos
      omega
    rw [readPlainFrom_word fuel text gap hc hword hne ?_ rfl hgap, if_neg hcol, hread, Gap.fold]
    · simp
    · rw [← List.head?_append_of_ne_nil _ hne]
      exact hplain.head_ne_hash
  | breaks b _ hb =>
    cases hb b List.mem_cons_self

/-- **A text without quotes is read back**, when it can be written so. -/
theorem readPlain_value (h : allowsPlain cs = true) (hne : cs ≠ [])
    (hc : c.Within (cs ++ '\n' :: more)) (hmore : EndsGap more) :
    ∃ c', readPlain false 0 c = .ok ⟨cs, c', true⟩ ∧ c'.rest = more ∧ c'.col = 0 := by
  refine readPlainFrom_text _ [] (.spaces []) (spaced_blanks cs) (plainRest_of_allowsPlain h hne)
    hc hmore ?_
  rw [hc.rest_eq, List.length_append]
  omega

/-! ### Keys -/

/-- Small letters and underscores. -/
def isKeyChar (c : Char) : Bool := c.isLower || c == '_'

theorem ne_of_isKeyChar {c d : Char} (h : isKeyChar c = true) (hd : isKeyChar d = false) :
    c ≠ d := by
  rintro rfl
  rw [h] at hd
  cases hd

theorem visible_of_isKeyChar {c : Char} (h : isKeyChar c = true) :
    isSpace c = false ∧ isBreak c = false := by
  have ne : ∀ {d}, isKeyChar d = false → (c == d) = false :=
    fun hd => beq_eq_false_iff_ne.2 (ne_of_isKeyChar h hd)
  constructor
  · rw [isSpace, ne rfl, ne rfl]
    rfl
  · rw [isBreak, ne rfl, ne rfl, ne rfl, ne rfl, ne rfl]
    rfl

theorem not_atDocumentMark_of_isKeyChar {d : Char} (h : c.rest = d :: rest)
    (hd : isKeyChar d = true) : c.atDocumentMark = false := by
  have hdash : d ≠ '-' := ne_of_isKeyChar hd rfl
  have hdot : d ≠ '.' := ne_of_isKeyChar hd rfl
  simp [Cursor.atDocumentMark, h, hdash, hdot]

/-- **A key is read** up to the colon behind it. -/
theorem readPlain_key (indent : Int) (hkey : ∀ c ∈ w, isKeyChar c = true) (hne : w ≠ [])
    (hc : c.rest = w ++ ':' :: ' ' :: more) :
    readPlain false indent c = .ok ⟨w, c.skip w.length, false⟩ := by
  obtain ⟨d, w, rfl⟩ := List.exists_cons_of_ne_nil hne
  have hd := hkey d List.mem_cons_self
  have hword : plainWord false (d :: w ++ ':' :: ' ' :: more) = .ok (d :: w) := by
    refine plainWord_append (fun c hc => visible_of_isKeyChar (hkey c hc)) (fun u v huv => ?_) rfl
    have hcolon := hkey ':' (by rw [huv]; simp)
    cases hcolon
  have hsees : c.sees '#' = false := by
    rw [Cursor.sees, hc]
    exact beq_eq_false_iff_ne.2 fun h => ne_of_isKeyChar hd rfl (Option.some.inj h)
  have hskip : (c.skip (d :: w).length).rest = ':' :: ' ' :: more := by
    rw [Cursor.skip, hc, List.drop_left]
  rw [readPlain, readPlainFrom, not_atDocumentMark_of_isKeyChar hc hd, hsees, hc, hword]
  simp only [ok_bind, List.isEmpty_cons, hskip]
  rfl

end BranchExclusion.Yaml
