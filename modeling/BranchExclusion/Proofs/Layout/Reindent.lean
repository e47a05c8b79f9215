import BranchExclusion.Proofs.Layout.Folding
import BranchExclusion.Proofs.Layout.Margins

/-!
# Source text that is laid out again

A body inside another one is laid out first, spliced into the text around it, and then moved with
that text, once for every body around it.

* `Text.IsLine`, `lines_unlines`: lines that are read back as they were written;
* `Moves`, `moves_reindent`: the lines of a text are cut between two characters, in white space;
* `continuation_continuation`: a line that was moved to a depth stays there;
* `Enclosed`: the text of a body around another one, with more bodies between;
* `reindent_again`: a text keeps its lines, and is laid out as it is when it was laid out before.
-/

namespace BranchExclusion

/-! ### Ends of lines -/

namespace Text

variable {l line t : List Char} {c : Char}

theorem trimEnd_concat : trimEnd (t ++ [c]) = t ++ [c] ↔ isBlank c = false := by
  rw [trimEnd, List.reverse_eq_iff, List.reverse_concat, ← trimStart, trimStart_cons_eq_self]

/-- A text without white space at its end is empty or ends in another character. -/
theorem trimEnd_cases (l : List Char) :
    trimEnd l = [] ∨ ∃ t c, trimEnd l = t ++ [c] ∧ isBlank c = false := by
  rcases List.eq_nil_or_concat' (trimEnd l) with h | ⟨t, c, h⟩
  · exact .inl h
  · have htrim := trimEnd_trimEnd l
    rw [h, trimEnd_concat] at htrim
    exact .inr ⟨t, c, h, htrim⟩

theorem dropReturn_concat (h : c ≠ '\r') (t : List Char) : dropReturn (t ++ [c]) = t ++ [c] := by
  rw [dropReturn, if_neg (by simpa using h)]

/-- A line that is read back as it was written. -/
structure IsLine (l : List Char) : Prop where
  not_mem : '\n' ∉ l
  dropReturn_eq : dropReturn l = l

namespace IsLine

theorem nil : IsLine [] := ⟨List.not_mem_nil, rfl⟩

theorem concat (ht : '\n' ∉ t) (hc : isBlank c = false) : IsLine (t ++ [c]) := by
  have hne : ∀ d, isBlank d = true → c ≠ d := by
    rintro d hd rfl
    rw [hc] at hd
    cases hd
  refine ⟨?_, dropReturn_concat (hne '\r' rfl) t⟩
  simpa [ht] using (hne '\n' rfl).symm

theorem trimEnd (h : '\n' ∉ l) : IsLine (trimEnd l) := by
  have hnot : '\n' ∉ Text.trimEnd l := fun hc => h ((Text.trimEnd_prefix l).subset hc)
  rcases trimEnd_cases l with heq | ⟨t, c, heq, hc⟩
  · rw [heq]
    exact .nil
  · rw [heq] at hnot ⊢
    exact .concat (fun h => hnot (List.mem_append_left _ h)) hc

theorem lines_append (h : IsLine l) (t : List Char) : lines (l ++ '\n' :: t) = l :: lines t := by
  rw [Text.lines_append h.not_mem, h.dropReturn_eq]

end IsLine

theorem not_mem_of_mem_linesFrom (hline : '\n' ∉ line) (h : l ∈ linesFrom line t) : '\n' ∉ l := by
  have hreverse : '\n' ∉ line.reverse := fun hc => hline (List.mem_reverse.1 hc)
  induction t generalizing line with
  | nil =>
    rw [linesFrom] at h
    split at h
    · cases h
    · rwa [List.mem_singleton.1 h]
  | cons c t ih =>
    rw [linesFrom] at h
    split at h
    · rcases List.mem_cons.1 h with rfl | h
      · exact fun hc => hreverse ((Text.dropReturn_prefix _).subset hc)
      · exact ih List.not_mem_nil h List.not_mem_nil
    · next hc =>
      have hcons : '\n' ∉ c :: line := List.not_mem_cons_of_ne_of_not_mem (Ne.symm hc) hline
      exact ih hcons h fun hr => hcons (List.mem_reverse.1 hr)

theorem linesFrom_ne_nil (h : line ≠ [] ∨ t ≠ []) : linesFrom line t ≠ [] := by
  induction t generalizing line with
  | nil =>
    rw [linesFrom, if_neg (h.resolve_right fun h => h rfl)]
    exact List.cons_ne_nil _ _
  | cons c t ih =>
    rw [linesFrom]
    split
    · exact List.cons_ne_nil _ _
    · exact ih (.inl (List.cons_ne_nil c line))

/-- A text that is not empty has a first line, and no line break is left in its lines. -/
theorem exists_lines (h : t ≠ []) : ∃ first rest, lines t = first :: rest ∧ '\n' ∉ first ∧
    ∀ l ∈ rest, '\n' ∉ l := by
  obtain ⟨first, rest, hlines⟩ := List.exists_cons_of_ne_nil (linesFrom_ne_nil (.inr h))
  have hall : ∀ l ∈ first :: rest, '\n' ∉ l := fun l hl =>
    not_mem_of_mem_linesFrom List.not_mem_nil (hlines ▸ hl)
  exact ⟨first, rest, hlines, List.forall_mem_cons.1 hall⟩

end Text

namespace Layout

open Text (IsLine Survives byteLength dropBytes takeBytes isBlank isBoundary isIndent trim trimEnd)

variable {base unit indent l v : Line} {columns : ℕ} {text : List Char} {c : Char}

theorem lines_unlines {ls : List Line} (h : ∀ l ∈ ls, IsLine l) : Text.lines (unlines ls) = ls := by
  induction ls with
  | nil => rfl
  | cons l ls ih =>
    obtain ⟨hl, hls⟩ := List.forall_mem_cons.1 h
    rw [unlines_cons, hl.lines_append, ih hls]

theorem Indent.isLine (h : Indent v) : IsLine v := by
  refine ⟨h.not_mem, ?_⟩
  rcases List.eq_nil_or_concat' v with rfl | ⟨t, c, rfl⟩
  · rfl
  · refine Text.dropReturn_concat ?_ t
    rintro rfl
    exact absurd (h '\r' (List.mem_append_right t (List.mem_singleton_self _))) (by decide)

/-- White space may stand before what is left of a line. -/
theorem Indent.isLine_trimEnd (h : Indent v) (hl : '\n' ∉ l) : IsLine (v ++ trimEnd l) := by
  have hnot := (IsLine.trimEnd hl).not_mem
  rcases Text.trimEnd_cases l with heq | ⟨t, c, heq, hc⟩
  · rw [heq, List.append_nil]
    exact h.isLine
  · rw [heq] at hnot ⊢
    rw [← List.append_assoc]
    refine .concat (fun hmem => ?_) hc
    rcases List.mem_append.1 hmem with hmem | hmem
    · exact h.not_mem hmem
    · exact hnot (List.mem_append_left _ hmem)

/-! ### Starts of lines -/

theorem takeWhile_append_dropIndent (columns : ℕ) (l : Line) :
    (l.take columns).takeWhile isIndent ++ dropIndent columns l = l := by
  induction columns generalizing l with
  | zero => rfl
  | succ columns ih =>
    cases l with
    | nil => rfl
    | cons c l =>
      rw [List.take_succ_cons, List.takeWhile_cons, dropIndent]
      split
      · exact congrArg (c :: ·) (ih l)
      · rfl

theorem byteLength_of_indent (h : Indent v) : byteLength v = v.length := by
  induction v with
  | nil => rfl
  | cons c v ih =>
    obtain ⟨hc, hv⟩ := List.forall_mem_cons.1 h
    have hsize : c.utf8Size = 1 := by
      simp only [isIndent, Bool.or_eq_true, beq_iff_eq] at hc
      rcases hc with rfl | rfl <;> rfl
    rw [Text.byteLength_cons, hsize, ih hv, List.length_cons, Nat.add_comm]

/-- What is cut off the start of a line are blanks and tabs, and the cut falls between two
characters. -/
theorem exists_cut (columns : ℕ) (l : Line) : ∃ cut ≤ columns, isBoundary l cut = true ∧
    Indent (takeBytes cut l) ∧ dropIndent columns l = dropBytes cut l := by
  have hcut : ∀ v s : Line, v ++ s = l → isBoundary l (byteLength v) = true ∧
      takeBytes (byteLength v) l = v ∧ dropBytes (byteLength v) l = s := by
    rintro v s rfl
    refine ⟨Text.isBoundary_append v s, ?_, ?_⟩
    · rw [Text.takeBytes_append (Nat.le_refl _), Text.takeBytes_byteLength]
    · rw [Text.dropBytes_append (Nat.le_refl _), Text.dropBytes_byteLength, List.nil_append]
  obtain ⟨hboundary, htake, hdrop⟩ := hcut _ _ (takeWhile_append_dropIndent columns l)
  have hindent : Indent ((l.take columns).takeWhile isIndent) :=
    fun c hc => List.mem_takeWhile_imp hc
  refine ⟨_, ?_, hboundary, htake.symm ▸ hindent, hdrop.symm⟩
  rw [byteLength_of_indent hindent]
  exact (List.takeWhile_prefix _).length_le.trans (List.length_take_le _ _)

theorem dropIndent_indent (hv : Indent v) (s : Line) : dropIndent v.length (v ++ s) = s := by
  induction v with
  | nil => rfl
  | cons c v ih =>
    obtain ⟨hc, hv⟩ := List.forall_mem_cons.1 hv
    rw [List.cons_append, List.length_cons, dropIndent, if_pos hc, ih hv]

theorem dropIndent_concat (hc : isBlank c = false) (columns : ℕ) (t : Line) :
    ∃ t', dropIndent columns (t ++ [c]) = t' ++ [c] := by
  obtain ⟨v, hv, hsplit⟩ := exists_dropIndent columns (t ++ [c])
  rcases List.eq_nil_or_concat' (dropIndent columns (t ++ [c])) with h | ⟨t', d, h⟩
  · rw [h, List.append_nil] at hsplit
    have hblank := hv.blank c (hsplit ▸ List.mem_append_right t (List.mem_singleton_self c))
    rw [hc] at hblank
    cases hblank
  · rw [h, ← List.append_assoc] at hsplit
    obtain ⟨-, hlast⟩ := List.append_inj' hsplit rfl
    rw [h, ← List.singleton_inj.1 hlast]
    exact ⟨t', rfl⟩

/-! ### Lines that were moved -/

theorem continuation_concat (indent : Line) (columns : ℕ) (t : Line) (hc : isBlank c = false) :
    continuation indent columns (t ++ [c]) = indent ++ dropIndent columns (t ++ [c]) := by
  unfold continuation
  rw [Text.trimEnd_concat.2 hc]
  split
  · next hnil => simp at hnil
  · rfl

/-- A later line is empty, or it starts with the indentation and ends without white space. -/
theorem continuation_cases (indent : Line) (columns : ℕ) (l : Line) :
    continuation indent columns l = [] ∨
      ∃ t c, isBlank c = false ∧ continuation indent columns l = indent ++ (t ++ [c]) := by
  have htrim : continuation indent columns l = continuation indent columns (trimEnd l) := by
    rw [continuation, continuation, Text.trimEnd_trimEnd]
  rcases Text.trimEnd_cases l with h | ⟨t, c, h, hc⟩
  · exact .inl (by rw [htrim, h]; rfl)
  · obtain ⟨t', hdrop⟩ := dropIndent_concat hc columns t
    exact .inr ⟨t', c, hc, by rw [htrim, h, continuation_concat indent columns t hc, hdrop]⟩

/-- A line that was moved to a depth stays there. -/
theorem continuation_continuation (hi : Indent indent) (columns : ℕ) (l : Line) :
    continuation indent indent.length (continuation indent columns l) =
      continuation indent columns l := by
  rcases continuation_cases indent columns l with h | ⟨t, c, hc, h⟩
  · rw [h]
    rfl
  · rw [h, ← List.append_assoc, continuation_concat indent _ _ hc, List.append_assoc,
      dropIndent_indent hi]

theorem isLine_continuation (hi : Indent indent) (columns : ℕ) (hl : '\n' ∉ l) :
    IsLine (continuation indent columns l) := by
  have hnot := not_mem_continuation hi columns hl
  rcases continuation_cases indent columns l with h | ⟨t, c, hc, h⟩
  · rw [h]
    exact .nil
  · rw [h, ← List.append_assoc] at hnot ⊢
    exact .concat (fun hmem => hnot (List.mem_append_left _ hmem)) hc

/-! ### Texts that were moved -/

/-- `l'` is the line `l` at another indentation: without the white space at its end, and without at
most `columns` blanks and tabs at its start, which are cut off between two characters. A line of
white space may be left empty. -/
structure Moves (indent : Line) (columns : ℕ) (l l' : Line) : Prop where
  trim_eq : trim l' = trim l
  cut : ∃ cut ≤ columns, isBoundary (trimEnd l) cut = true ∧
    Indent (takeBytes cut (trimEnd l)) ∧
      (l' = indent ++ dropBytes cut (trimEnd l) ∨ trimEnd l = [] ∧ l' = [])

/-- The text of the lines to which a source text is laid out. -/
def moved (indent : Line) (columns : ℕ) (text : List Char) : List Char :=
  unlines (reindent indent [] columns text)

variable {first : Line} {rest : List Line}

theorem reindent_of_lines (h : Text.lines text = first :: rest) (indent : Line) (columns : ℕ) :
    reindent indent [] columns text =
      (indent ++ trimEnd first) :: rest.map (continuation indent columns) := by
  rw [reindent, h]
  rfl

theorem isLine_reindent (hi : Indent indent) (columns : ℕ) (hne : text ≠ []) :
    ∀ l ∈ reindent indent [] columns text, IsLine l := by
  obtain ⟨first, rest, h, hfirst, hrest⟩ := Text.exists_lines hne
  rw [reindent_of_lines h]
  refine List.forall_mem_cons.2 ⟨hi.isLine_trimEnd hfirst, List.forall_mem_map.2 fun l hl => ?_⟩
  exact isLine_continuation hi columns (hrest l hl)

theorem moves_continuation (hi : Indent indent) (columns : ℕ) (l : Line) :
    Moves indent columns l (continuation indent columns l) := by
  refine ⟨trim_continuation hi columns l, ?_⟩
  obtain ⟨cut, hle, hboundary, hindent, hdrop⟩ := exists_cut columns (trimEnd l)
  refine ⟨cut, hle, hboundary, hindent, ?_⟩
  unfold continuation
  split
  · next h => exact .inr ⟨h, rfl⟩
  · exact .inl (by rw [hdrop])

/-- The lines of a text are moved one by one. -/
theorem moves_reindent (hi : Indent indent) (columns : ℕ) (hne : text ≠ []) :
    List.Forall₂ (Moves indent columns) (Text.lines text) (reindent indent [] columns text) := by
  obtain ⟨first, rest, h, -⟩ := Text.exists_lines hne
  rw [reindent_of_lines h, h]
  refine .cons ⟨?_, 0, Nat.zero_le _, ?_⟩ (List.forall₂_map_right_iff.2 (List.forall₂_same.2 ?_))
  · rw [Text.trim_append_left hi.blank, Text.trim_trimEnd]
  · simp [isBoundary, Indent]
  · exact fun l _ => moves_continuation hi columns l

/-- A text that was moved to a depth stays there, when its first line is indented again. -/
theorem exists_moved_moved (hi : Indent indent) (columns : ℕ) (hne : text ≠ []) :
    ∃ again, moved indent columns text = indent ++ again ∧
      moved indent indent.length again = moved indent columns text := by
  obtain ⟨first, rest, h, hfirst, hrest⟩ := Text.exists_lines hne
  set later := rest.map (continuation indent columns) with hlater
  have hmoved : moved indent columns text = indent ++ (trimEnd first ++ '\n' :: unlines later) := by
    rw [moved, reindent_of_lines h, unlines_cons, List.append_assoc]
  refine ⟨trimEnd first ++ '\n' :: unlines later, hmoved, ?_⟩
  have hlines : Text.lines (trimEnd first ++ '\n' :: unlines later) = trimEnd first :: later := by
    have hall : ∀ l ∈ later, IsLine l :=
      List.forall_mem_map.2 fun l hl => isLine_continuation hi columns (hrest l hl)
    rw [(IsLine.trimEnd hfirst).lines_append, lines_unlines hall]
  have hstay : later.map (continuation indent indent.length) = later := by
    rw [hlater, List.map_map]
    exact List.map_congr_left fun l _ => continuation_continuation hi columns l
  rw [hmoved, moved, reindent_of_lines hlines, hstay, Text.trimEnd_trimEnd, unlines_cons,
    List.append_assoc]

/-! ### Bodies around a body -/

/-- `out` is `inner`, or the text of a body in which `inner` stands, maybe within other bodies: each
of them is nested in source text that a statement of the next one is kept as. -/
inductive Enclosed (inner : String) : String → Prop
  | self : Enclosed inner inner
  | around {text out unit base : String} {body : Body} {nested : List Edit} {id : BlockId}
      {b : Block} {s : Statement} {v : Verbatim} {range : ByteRange} : Enclosed inner text →
      Indent base.toList → Indent unit.toList → renderBody body unit base nested = .ok out →
      body.Reaches Body.root id → body.block id = .ok b → s ∈ b.statements → v ∈ s.verbatims →
      ⟨range, text⟩ ∈ nested → range.start < range.stop → v.range.contains range = true →
      Enclosed inner out

theorem Enclosed.survives {inner out : String} (h : Enclosed inner out) :
    Survives inner.toList out.toList := by
  induction h with
  | self => exact .of_isInfix List.infix_rfl
  | around _ hbase hunit hrender hr hb hs hv he hne hin ih =>
    obtain ⟨spliced, hsplice, hsurvives⟩ :=
      (survives_of_renderBody hbase hunit hrender hr hb hs).2 _ hv
    have hinside := (splice_keeps hsplice).1 _ (Printer.mem_inside_of_contains he hne hin)
    exact ih.trans (hsurvives.anti hinside)

/-- **A text that is laid out keeps its lines, and stays when it is laid out again.** The layout has
a line for each line of the source, moved and not changed otherwise, and these are the lines that
are read from its text. Behind its first indentation the text of the layout is one that the same
depth and the column of that indentation leave as it is. So the text of a body survives in the text
of every body around it. -/
theorem reindent_again {p : Printer} (hbase : Indent p.base) (hunit : Indent p.unit)
    (depth columns : ℕ) {text : List Char} (hne : text ≠ []) :
    List.Forall₂ (Moves (p.indent depth) columns) (Text.lines text)
        (reindent (p.indent depth) [] columns text) ∧
      Text.lines (moved (p.indent depth) columns text) =
        reindent (p.indent depth) [] columns text ∧
      (∃ again, moved (p.indent depth) columns text = p.indent depth ++ again ∧
        moved (p.indent depth) (p.indent depth).length again =
          moved (p.indent depth) columns text) ∧
      ∀ inner out : String, Enclosed inner out → Survives inner.toList out.toList := by
  have hi : Indent (p.indent depth) := hbase.indentation hunit depth
  exact ⟨moves_reindent hi columns hne, lines_unlines (isLine_reindent hi columns hne),
    exists_moved_moved hi columns hne, fun _ _ h => h.survives⟩

/-! ### A text with mixed line ends -/

/-- Both kinds of line ends, a line of white space and characters of two bytes. -/
def mixedText : String := "f(\r\n      «é»,  \r\n \t\n\t\tb);"

/-- The body of a lambda. -/
def lambdaText : String := "\x7b\n\tg();\n\x7d"

/-- A body with the statement in which the lambda stands. -/
def aroundLambda : Body :=
  ⟨#[⟨[.other ⟨"r = () -> \x7b g(); \x7d;", ⟨10, 29⟩, ⟨2, 4, 2, 23⟩⟩], .zero, true, false, false⟩]⟩

/-- The text of that body. -/
def aroundText : String := "\x7b\n\t  r = () -> \x7b\n\t  g();\n\t  \x7d;\n\t\x7d"

/-- The mixed text is laid out at depth 1, then once more from there. The lambda survives in the
body around it. -/
theorem reindent_again_mixed : mixedText.toList ≠ [] ∧
    moved "\t  ".toList 4 mixedText.toList = "\t  f(\n\t    «é»,\n\n\t  b);\n".toList ∧
    moved "\t  ".toList 3 "f(\n\t    «é»,\n\n\t  b);\n".toList =
      "\t  f(\n\t    «é»,\n\n\t  b);\n".toList ∧
    Survives lambdaText.toList aroundText.toList := by
  have hnonempty : mixedText.toList ≠ [] := by decide
  obtain ⟨-, -, ⟨again, hagain, hmoved⟩, hsurvives⟩ :=
    reindent_again (p := ⟨aroundLambda, "\t".toList, "  ".toList, []⟩) (by decide) (by decide) 1 4
      hnonempty
  have hlaid : moved "\t  ".toList 4 mixedText.toList =
      "\t  f(\n\t    «é»,\n\n\t  b);\n".toList := by decide
  obtain rfl : again = "f(\n\t    «é»,\n\n\t  b);\n".toList :=
    List.append_cancel_left (hagain.symm.trans hlaid)
  have hrender : renderBody aroundLambda "  " "\t" [⟨⟨20, 28⟩, lambdaText⟩] = .ok aroundText := by
    decide +kernel
  refine ⟨hnonempty, hlaid, hmoved.trans hlaid, hsurvives lambdaText aroundText ?_⟩
  exact .around .self (by decide) (by decide) hrender .self rfl (List.mem_singleton_self _)
    (List.mem_singleton_self _) (List.mem_singleton_self _) (by decide) (by decide)

end Layout

end BranchExclusion
