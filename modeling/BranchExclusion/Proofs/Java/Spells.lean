import BranchExclusion.Proofs.Java.Places
import BranchExclusion.Proofs.Java.Spelling

/-!
# The words of a text

* `Spells`: a text with these words that other texts may follow;
* `Spells.append`, `Spells.line`: texts one behind the other, and one line behind the other;
* `Spells.symbol`: brackets and semicolons, whatever follows them;
* `words_trim`: white space at the ends of a text makes no difference.
-/

namespace BranchExclusion.Java

variable {x y : List Char} {ws vs : List Word}

theorem tidy_append (hx : Tidy x) (hy : Tidy y) (hwords : words (x ++ y) = words x ++ words y) :
    Tidy (x ++ y) := by
  unfold Tidy at hx hy ⊢
  rw [hwords]
  exact List.forall_mem_append.2 ⟨hx, hy⟩

/-- The text has these words, none of them stray, and does not end with a line comment. -/
structure Spells (text : List Char) (ws : List Word) : Prop where
  eq : words text = ws
  tidy : Tidy text
  closed : runsOn text = false

theorem spells_nil : Spells [] [] := ⟨rfl, tidy_nil, rfl⟩

/-- White space before a text is passed over. -/
theorem Spells.indent {blank : List Char} (hblank : ∀ c ∈ blank, isSpace c = true)
    (h : Spells x ws) : Spells (blank ++ x) ws := by
  induction blank with
  | nil => exact h
  | cons c blank ih =>
    have hc := hblank c List.mem_cons_self
    obtain ⟨hwords, htidy, hclosed⟩ := ih fun d hd => hblank d (List.mem_cons_of_mem c hd)
    refine ⟨by rw [List.cons_append, words_space hc, hwords], ?_,
      by rw [List.cons_append, runsOn_space hc, hclosed]⟩
    unfold Tidy
    rw [List.cons_append, words_space hc]
    exact htidy

/-- A text behind another one. -/
theorem Spells.append (h : Spells x ws) (h' : Spells y vs) (hy : Bounded y) :
    Spells (x ++ y) (ws ++ vs) := by
  have hline : ∀ {P : Prop}, runsOn x = true → P := fun hrun => by
    rw [h.closed] at hrun
    cases hrun
  have hwords : words (x ++ y) = words x ++ words y := words_append h.tidy hy hline
  exact ⟨by rw [hwords, h.eq, h'.eq], tidy_append h.tidy h'.tidy hwords,
    runsOn_append h.tidy hy hline h'.closed⟩

/-- A text behind another one and a line end, which ends a comment. -/
theorem Spells.line (hx : Tidy x) (h : Spells y vs) : Spells (x ++ '\n' :: y) (words x ++ vs) := by
  have hnewline : isSpace '\n' = true := rfl
  have hy : Bounded ('\n' :: y) := bounded_cons.2 rfl
  have hindent : Spells (['\n'] ++ y) vs := h.indent (by simp [hnewline])
  obtain ⟨hwords', htidy', hclosed'⟩ := hindent
  have hwords : words (x ++ '\n' :: y) = words x ++ words ('\n' :: y) :=
    words_append hx hy fun _ d hd => (Option.some.inj hd).symm
  exact ⟨by rw [hwords]; exact congrArg _ hwords', tidy_append hx htidy' hwords,
    runsOn_append hx hy (fun _ => ⟨y, rfl⟩) hclosed'⟩

/-! ### Brackets and semicolons -/

/-- The word of a bracket or semicolon. -/
def symbolWord (c : Char) : Word := ⟨.symbol, String.singleton c⟩

/-- Brackets and semicolons are symbols by themselves. -/
def isMark (c : Char) : Bool := ['(', ')', '{', '}', ';'].contains c

theorem tokenText_mark {c : Char} (hc : isMark c = true) (y : List Char) :
    isSpace c = false ∧ tokenText c y = (.symbol, [c]) ∧ (symbolWord c).isStray = false := by
  simp only [isMark, List.contains_cons, List.contains_nil, Bool.or_false, Bool.or_eq_true,
    beq_iff_eq] at hc
  rcases hc with rfl | rfl | rfl | rfl | rfl <;> exact ⟨rfl, rfl, rfl⟩

theorem bounded_mark {c : Char} (hc : isMark c = true) (y : List Char) : Bounded (c :: y) := by
  refine bounded_cons.2 ?_
  unfold isSeparator
  unfold isMark at hc
  rw [hc, Bool.or_true]

theorem words_mark {c : Char} (hc : isMark c = true) (y : List Char) :
    words (c :: y) = symbolWord c :: words y := by
  obtain ⟨hspace, htext, -⟩ := tokenText_mark hc y
  have hsplit : c :: y = [c] ++ y := rfl
  rw [words_token hspace htext hsplit]
  rfl

/-- A bracket or semicolon, whatever follows. -/
theorem Spells.symbol {c : Char} (hc : isMark c = true) (h : Spells x ws) :
    Spells (c :: x) (symbolWord c :: ws) := by
  obtain ⟨hspace, htext, hstray⟩ := tokenText_mark hc x
  refine ⟨by rw [words_mark hc, h.eq], ?_, ?_⟩
  · unfold Tidy
    rw [words_mark hc]
    exact List.forall_mem_cons.2 ⟨hstray, h.tidy⟩
  · by_cases hnil : x = []
    · subst hnil
      rw [runsOn_whole hspace htext]
      unfold isLineComment
      split
      · next heq => cases heq
      · rfl
    · have hsplit : c :: x = [c] ++ x := rfl
      rw [runsOn_token hspace htext hsplit hnil, h.closed]

/-- A text with a bracket or semicolon behind it. -/
theorem Spells.mark {c : Char} (hc : isMark c = true) (h : Spells x ws) (h' : Spells y vs) :
    Spells (x ++ c :: y) (ws ++ symbolWord c :: vs) := h.append (h'.symbol hc) (bounded_mark hc y)

/-- A bracket is a symbol. -/
theorem kind_of_opens {p : Place} {cs : List Char} {t : Token} (h : t ∈ tokensAt p cs)
    (hopens : t.word.opens = true) : t.word.kind = .symbol := by
  obtain ⟨-, c, rest, behind, -, htext, hsplit, -, -⟩ := exists_split_of_mem_tokensAt h
  have hall : ∀ d ∈ ['(', '[', '{'], t.text.toList = [d] → t.kind = .symbol := by
    intro d hd hd'
    rw [hd'] at hsplit htext
    obtain rfl : c = d := (List.cons.inj hsplit).1
    simp only [List.mem_cons, List.not_mem_nil, or_false] at hd
    rcases hd with rfl | rfl | rfl <;> exact (congrArg Prod.fst htext).symm
  have htext' : t.text = "(" ∨ t.text = "[" ∨ t.text = leftBrace := by
    by_cases hquoted : t.kind = .quoted
    · simp [Token.word, hquoted, Word.opens, Word.is, leftBrace] at hopens
    · simpa [Token.word, hquoted, Word.opens, Word.is, or_assoc] using hopens
  rcases htext' with htext' | htext' | htext'
  · exact hall '(' (by simp) (by rw [htext']; rfl)
  · exact hall '[' (by simp) (by rw [htext']; rfl)
  · exact hall '{' (by simp) (by rw [htext']; rfl)

end BranchExclusion.Java
