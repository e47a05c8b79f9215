import BranchExclusion.Proofs.Java.Moved
import BranchExclusion.Proofs.Java.Spells
import BranchExclusion.Proofs.Layout.Reflow

/-!
# The words of laid out lines

* `Leads`: a text with these words that any other text may follow;
* `leads_reindent`: source text that is moved to a depth has its words behind those of what leads it;
* `Named`: a text that is a word, such as a label.
-/

namespace BranchExclusion.Java

open Layout (Indent Line reindent continuation unlines dropIndent)
open Text (isBlank trimEnd Blank)

variable {x y : List Char} {ws vs : List Word}

/-! ### What any text may follow -/

/-- The text has these words, and any other text may follow it. -/
def Leads (text : List Char) (ws : List Word) : Prop :=
  ∀ y vs, Spells y vs → Spells (text ++ y) (ws ++ vs)

theorem leads_nil : Leads [] [] := fun _ _ h => h

theorem Leads.append (h : Leads x ws) (h' : Leads y vs) : Leads (x ++ y) (ws ++ vs) := by
  intro z us hz
  rw [List.append_assoc, List.append_assoc]
  exact h _ _ (h' _ _ hz)

theorem Leads.spells (h : Leads x ws) : Spells x ws := by
  have hself := h [] [] spells_nil
  rwa [List.append_nil, List.append_nil] at hself

/-- A text behind one that any text may follow. -/
theorem Leads.then (h : Leads x ws) (h' : Spells y vs) : Spells (x ++ y) (ws ++ vs) := h _ _ h'

theorem isSpace_of_isIndent {c : Char} (h : Text.isIndent c = true) : isSpace c = true := by
  rw [Text.isIndent, Bool.or_eq_true, beq_iff_eq, beq_iff_eq] at h
  rcases h with rfl | rfl <;> rfl

theorem leads_indent (h : Indent x) : Leads x [] :=
  fun _ _ hy => hy.indent fun c hc => isSpace_of_isIndent (h c hc)

/-- A bracket or semicolon ends the text. -/
theorem Spells.leads_mark {c : Char} (hc : isMark c = true) (h : Spells x ws) :
    Leads (x ++ [c]) (ws ++ [symbolWord c]) := by
  intro y vs hy
  rw [List.append_assoc, List.append_assoc]
  exact h.mark hc hy

theorem leads_mark {c : Char} (hc : isMark c = true) : Leads [c] [symbolWord c] :=
  spells_nil.leads_mark hc

theorem leads_blank : Leads [' '] [] := leads_indent (List.forall_mem_singleton.2 rfl)

/-- A blank ends the text. -/
theorem Spells.leads_blank (h : Spells x ws) : Leads (x ++ [' ']) ws := by
  intro y vs hy
  rw [List.append_assoc]
  exact h.append (Java.leads_blank _ _ hy) (bounded_cons.2 rfl)

/-- The end of the line ends the text, and a comment behind it. -/
theorem leads_line (h : Tidy x) : Leads (x ++ ['\n']) (words x) := by
  intro y vs hy
  rw [List.append_assoc]
  exact Spells.line h hy

theorem Spells.leads_line (h : Spells x ws) : Leads (x ++ ['\n']) ws := h.eq ▸ Java.leads_line h.tidy

/-! ### Text that is moved to a depth -/

theorem unlines_append (l m : List Line) : unlines (l ++ m) = unlines l ++ unlines m := by
  simp [unlines]

/-- The lines behind the first, from the first character on that is neither cut off nor added. -/
theorem exists_moved_continuation {indent : Line} (hi : Indent indent) (columns : ℕ) (t : List Char) :
    t = [] ∨ ∃ v w s u, t = v ++ s ∧
      unlines ((Text.lines t).map (continuation indent columns)) = w ++ (u ++ ['\n']) ∧
        Indent v ∧ Indent w ∧ Moved s u := by
  have hnil : Indent [] := List.forall_mem_nil _
  -- one line, with the white space at its end
  have hline : ∀ r : Line, '\n' ∉ r → ∃ v w s b, Indent v ∧ Indent w ∧ r = v ++ (s ++ b) ∧
      Blank b ∧ '\n' ∉ s ∧ '\n' ∉ b ∧ continuation indent columns r = w ++ s := by
    intro r hr
    obtain ⟨b, hb, hsplit⟩ := Text.exists_trimEnd r
    have hbn : '\n' ∉ b := fun hc => hr (hsplit ▸ List.mem_append_right _ hc)
    unfold continuation
    split
    · next htrim =>
      rw [htrim] at hsplit
      exact ⟨[], [], [], b, hnil, hnil, hsplit, hb, List.not_mem_nil, hbn, rfl⟩
    · obtain ⟨v, hv, hdrop⟩ := Layout.exists_dropIndent columns (trimEnd r)
      refine ⟨v, indent, dropIndent columns (trimEnd r), b, hv, hi, ?_, hb, fun hc => hr ?_, hbn, rfl⟩
      · rw [← List.append_assoc, ← hdrop, ← hsplit]
      · rw [hsplit, hdrop]
        exact List.mem_append_left _ (List.mem_append_right _ hc)
  rcases Text.single_or_first t with ht | ⟨r, t', rfl, hr⟩
  · by_cases ht' : t = []
    · exact .inl ht'
    · obtain ⟨v, w, s, b, hv, hw, hsplit, hb, hs, -, hcont⟩ := hline t ht
      refine .inr ⟨v, w, s ++ b, s, hsplit, ?_, hv, hw, .trimmed s hb⟩
      rw [Text.lines_of_not_mem ht ht', List.map_singleton, Layout.unlines_cons, hcont]
      simp [unlines]
  · have hdrop : '\n' ∉ Text.dropReturn r := fun hc => hr ((Text.dropReturn_prefix r).subset hc)
    obtain ⟨v, w, s, b, hv, hw, hsplit, hb, hs, hbn, hcont⟩ := hline _ hdrop
    obtain ⟨b', hb', hbn', hreturn⟩ : ∃ b', Blank b' ∧ '\n' ∉ b' ∧ r = Text.dropReturn r ++ b' := by
      obtain ⟨b', hb'⟩ := Text.dropReturn_prefix r
      refine ⟨b', fun c hc => ?_, fun hc => hr (hb' ▸ List.mem_append_right _ hc), hb'.symm⟩
      unfold Text.dropReturn at hb'
      split at hb'
      · next hlast =>
        obtain ⟨r', rfl⟩ := List.getLast?_eq_some_iff.1 hlast
        rw [List.dropLast_concat] at hb'
        rw [List.append_cancel_left hb', List.mem_singleton] at hc
        rw [hc]
        rfl
      · rw [List.append_right_eq_self.1 hb'] at hc
        cases hc
    have hblank : ∀ c ∈ b ++ b', isBlank c = true ∧ c ≠ '\n' := by
      intro c hc
      rcases List.mem_append.1 hc with hc | hc
      · exact ⟨hb c hc, fun heq => hbn (heq ▸ hc)⟩
      · exact ⟨hb' c hc, fun heq => hbn' (heq ▸ hc)⟩
    have hr' : r = v ++ (s ++ (b ++ b')) := by
      conv_lhs => rw [hreturn, hsplit]
      simp
    have hlines : unlines ((Text.lines (r ++ '\n' :: t')).map (continuation indent columns)) =
        w ++ (s ++ '\n' :: unlines ((Text.lines t').map (continuation indent columns))) := by
      rw [Text.lines_append hr, List.map_cons, Layout.unlines_cons, hcont, List.append_assoc]
    right
    rcases exists_moved_continuation hi columns t' with
      rfl | ⟨v', w', s', u', rfl, hu', hv', hw', hmoved⟩
    · refine ⟨v, w, s ++ (b ++ b' ++ ['\n']), s, by rw [hr']; simp, hlines, hv, hw,
        .trimmed s fun c hc => ?_⟩
      rcases List.mem_append.1 hc with hc | hc
      · exact (hblank c hc).1
      · rw [List.mem_singleton.1 hc]
        rfl
    · refine ⟨v, w, s ++ (b ++ b' ++ '\n' :: (v' ++ s')), s ++ '\n' :: (w' ++ u'), by rw [hr']; simp,
        ?_, hv, hw, .chars hs (.line hblank hv' hw' hmoved)⟩
      rw [hlines, hu']
      simp
termination_by t.length

/-- Source text that is moved to a depth, behind what leads it. -/
theorem exists_moved_reindent {indent : Line} (hi : Indent indent) (lead : Line) (columns : ℕ)
    (t : List Char) : ∃ u, unlines (reindent indent lead columns t) =
      indent ++ (lead ++ (u ++ ['\n'])) ∧ Moved t u := by
  have hsplit : ∀ r : Line, '\n' ∉ r → ∃ b, (∀ c ∈ b, isBlank c = true ∧ c ≠ '\n') ∧
      r = trimEnd r ++ b ∧ '\n' ∉ trimEnd r := by
    intro r hr
    obtain ⟨b, hb, hsplit⟩ := Text.exists_trimEnd r
    refine ⟨b, fun c hc => ⟨hb c hc, fun heq => hr ?_⟩, hsplit, fun hc => hr ?_⟩
    · rw [hsplit]
      exact List.mem_append_right _ (heq ▸ hc)
    · rw [hsplit]
      exact List.mem_append_left _ hc
  rcases Text.single_or_first t with ht | ⟨r, t', rfl, hr⟩
  · by_cases hnil : t = []
    · subst hnil
      exact ⟨[], by simp [reindent, unlines], .tail (List.forall_mem_nil _) (.inl rfl)⟩
    · obtain ⟨b, hb, htrim, -⟩ := hsplit t ht
      refine ⟨trimEnd t, by simp [reindent, Text.lines_of_not_mem ht hnil, unlines], ?_⟩
      conv_lhs => rw [htrim]
      exact .trimmed _ fun c hc => (hb c hc).1
  · have hdrop : '\n' ∉ Text.dropReturn r := fun hc => hr ((Text.dropReturn_prefix r).subset hc)
    have htrim : trimEnd (Text.dropReturn r) = trimEnd r := by
      unfold Text.dropReturn
      split
      · next hlast =>
        obtain ⟨r', rfl⟩ := List.getLast?_eq_some_iff.1 hlast
        rw [List.dropLast_concat, Text.trimEnd_append]
        intro c hc
        rw [List.mem_singleton.1 hc]
        rfl
      · rfl
    obtain ⟨b, hb, hr', hrn⟩ := hsplit r hr
    have hlines : unlines (reindent indent lead columns (r ++ '\n' :: t')) =
        indent ++ (lead ++ (trimEnd r ++
          '\n' :: unlines ((Text.lines t').map (continuation indent columns)))) := by
      simp [reindent, Text.lines_append hr, Layout.unlines_cons, htrim]
    rcases exists_moved_continuation hi columns t' with rfl | ⟨v, w, s, u, rfl, hu, hv, hw, hmoved⟩
    · refine ⟨trimEnd r, hlines, ?_⟩
      have hsource : r ++ ['\n'] = trimEnd r ++ (b ++ ['\n']) := by
        conv_lhs => rw [hr']
        simp
      rw [hsource]
      refine .trimmed _ fun c hc => ?_
      rcases List.mem_append.1 hc with hc | hc
      · exact (hb c hc).1
      · rw [List.mem_singleton.1 hc]
        rfl
    · refine ⟨trimEnd r ++ '\n' :: (w ++ u), ?_, ?_⟩
      · rw [hlines, hu]
        simp
      · have hsource : r ++ '\n' :: (v ++ s) = trimEnd r ++ (b ++ '\n' :: (v ++ s)) := by
          conv_lhs => rw [hr']
          simp
        rw [hsource]
        exact .chars hrn (.line hb hv hw hmoved)

/-- **Text that is moved to a depth** has its words behind those of what leads it. -/
theorem leads_reindent {indent lead : Line} (hi : Indent indent) (hlead : Leads lead ws) (columns : ℕ)
    {t : List Char} (ht : Tidy t) :
    Leads (unlines (reindent indent lead columns t)) (ws ++ words t) := by
  obtain ⟨u, hlines, hmoved⟩ := exists_moved_reindent hi lead columns t
  have hu := Java.leads_line (hmoved.tidy ht)
  rw [hmoved.words_eq ht] at hu
  rw [hlines]
  exact (leads_indent hi).append (hlead.append hu)

/-! ### Words and labels -/

/-- The text is a word by itself. -/
def Named (text : List Char) : Prop :=
  ∃ c rest, text = c :: rest ∧ startsWord c = true ∧ ∀ d ∈ rest, inWord d = true

theorem tokenText_word {c : Char} {rest : List Char} (hc : startsWord c = true)
    (hrest : ∀ d ∈ rest, inWord d = true) (hy : ∀ d ∈ y.head?, inWord d = false) :
    isSpace c = false ∧ tokenText c (rest ++ y) = (.word, c :: rest) := by
  have hword : inWord c = true := by
    unfold inWord
    rw [hc, Bool.true_or]
  constructor
  · by_contra hspace
    have hblank : isSeparator c = true := by
      unfold isSeparator
      have : Text.isBlank c = true := by
        rw [Bool.not_eq_false, isSpace, Bool.or_eq_true, beq_iff_eq, Bool.and_eq_true,
          decide_eq_true_eq, decide_eq_true_eq] at hspace
        rcases hspace with rfl | hspace
        · rfl
        · simp [Text.isBlank, hspace]
      rw [this, Bool.true_or]
    rw [inWord_of_isSeparator hblank] at hword
    cases hword
  · have hspecial : startsSpecial (c :: (rest ++ y)) = false := by
      unfold startsSpecial
      split
      · next heq =>
        rw [(List.cons.inj heq).1] at hc
        exact absurd hc (by decide)
      · next heq =>
        rw [(List.cons.inj heq).1] at hc
        exact absurd hc (by decide)
      · next heq =>
        rw [(List.cons.inj heq).1] at hc
        exact absurd hc (by decide)
      · next heq =>
        rw [(List.cons.inj heq).1] at hc
        exact absurd hc (by decide)
      · rfl
    have hnil : y.takeWhile inWord = [] := by
      cases y with
      | nil => rfl
      | cons d y => rw [List.takeWhile_cons_of_neg (by simp [hy d rfl])]
    rw [tokenText_plain hspecial, plainText, if_pos hc, List.takeWhile_append_of_pos hrest, hnil,
      List.append_nil]

/-- A token at the start of a text, which is no comment. -/
theorem Spells.token {c : Char} {rest text behind : List Char} {kind : TokenKind}
    (hc : isSpace c = false) (htext : tokenText c rest = (kind, text))
    (hsplit : c :: rest = text ++ behind) (hstray : ∀ w ∈ wordOf kind text, w.isStray = false)
    (hline : isLineComment text = false) (h : Spells behind ws) :
    Spells (c :: rest) (wordOf kind text ++ ws) := by
  refine ⟨by rw [words_token hc htext hsplit, h.eq], ?_, ?_⟩
  · unfold Tidy
    rw [words_token hc htext hsplit]
    exact List.forall_mem_append.2 ⟨hstray, h.tidy⟩
  · by_cases hnil : behind = []
    · subst hnil
      rw [List.append_nil] at hsplit
      rw [← hsplit] at htext hline
      rw [runsOn_whole hc htext, hline]
    · rw [runsOn_token hc htext hsplit hnil, h.closed]

namespace Named

variable {text : List Char} (h : Named text)
include h

theorem spells_append (hy : ∀ d ∈ y.head?, inWord d = false) (hvs : Spells y vs) :
    Spells (text ++ y) (⟨.word, String.ofList text⟩ :: vs) := by
  obtain ⟨c, rest, rfl, hc, hrest⟩ := h
  obtain ⟨hspace, htext⟩ := tokenText_word hc hrest hy
  refine Spells.token hspace htext rfl ?_ ?_ hvs
  · exact List.forall_mem_singleton.2 rfl
  · unfold isLineComment
    split
    · next heq =>
      rw [(List.cons.inj heq).1] at hc
      exact absurd hc (by decide)
    · rfl

theorem spells : Spells text [⟨.word, String.ofList text⟩] := by
  have hself := h.spells_append (y := []) (fun _ hd => by cases hd) spells_nil
  rwa [List.append_nil] at hself

/-- A label with the colon behind it. -/
theorem leads_label : Leads (text ++ [':', ' ']) [⟨.word, String.ofList text⟩, ⟨.symbol, ":"⟩] := by
  intro y vs hy
  have htext : tokenText ':' (' ' :: y) = (.symbol, [':']) := rfl
  have hsplit : ':' :: ' ' :: y = [':'] ++ ' ' :: y := rfl
  have hcolon : Spells (':' :: ' ' :: y) (⟨.symbol, ":"⟩ :: vs) :=
    Spells.token rfl htext hsplit (by decide) rfl (leads_blank _ _ hy)
  rw [List.append_assoc]
  exact h.spells_append (fun d hd => by cases hd; rfl) hcolon

/-- What names something is no symbol. -/
theorem ne_symbol {symbol : String}
    (hsymbol : (symbol.toList.head?.all fun c => !startsWord c) = true) :
    (String.ofList text == symbol) = false := by
  obtain ⟨c, rest, rfl, hc, -⟩ := h
  refine beq_eq_false_iff_ne.2 fun heq => ?_
  rw [← heq, String.toList_ofList] at hsymbol
  simp [hc] at hsymbol

end Named

end BranchExclusion.Java
