import BranchExclusion.Proofs.Body.Growth
import BranchExclusion.Proofs.Layout.Shown
import BranchExclusion.Proofs.Source.Stretch
import BranchExclusion.Proofs.Text.Rows

/-!
# Source text in a layout

The layout moves the lines of source text, and nothing else of it.

* `exists_reflows_reindent`: the lines of a text that is moved to a depth;
* `Statement.texts`: the text that a statement shows, apart from the one that bodies may be nested in;
* `survives_of_renderBody`: all of it survives in the text of the body.
-/

namespace BranchExclusion

/-! ### Lines -/

namespace Text

variable {r t line : List Char}

theorem linesFrom_append (h : '\n' ∉ r) (line t : List Char) :
    linesFrom line (r ++ '\n' :: t) = dropReturn (line.reverse ++ r) :: linesFrom [] t := by
  induction r generalizing line with
  | nil => simp [linesFrom]
  | cons c r ih =>
    obtain ⟨hc, hr⟩ := not_or.1 (mt List.mem_cons.2 h)
    rw [List.cons_append, linesFrom, if_neg (Ne.symm hc), ih hr]
    simp

theorem lines_append (h : '\n' ∉ r) (t : List Char) :
    lines (r ++ '\n' :: t) = dropReturn r :: lines t := linesFrom_append h [] t

theorem linesFrom_of_not_mem (h : '\n' ∉ r) (line : List Char) :
    linesFrom line r = if line.reverse ++ r = [] then [] else [line.reverse ++ r] := by
  induction r generalizing line with
  | nil => simp [linesFrom]
  | cons c r ih =>
    obtain ⟨hc, hr⟩ := not_or.1 (mt List.mem_cons.2 h)
    rw [linesFrom, if_neg (Ne.symm hc), ih hr]
    simp

theorem lines_of_not_mem (h : '\n' ∉ r) (hne : r ≠ []) : lines r = [r] := by
  rw [lines, linesFrom_of_not_mem h, if_neg (by simpa using hne)]
  rfl

/-- A text is a single line, or has a first one. -/
theorem single_or_first (t : List Char) :
    '\n' ∉ t ∨ ∃ r u, t = r ++ '\n' :: u ∧ '\n' ∉ r := by
  by_cases h : '\n' ∈ t
  · exact .inr (List.eq_append_cons_of_mem h)
  · exact .inl h

theorem dropReturn_prefix (r : List Char) : dropReturn r <+: r := by
  unfold dropReturn
  split
  · exact List.dropLast_prefix r
  · exact List.prefix_rfl

theorem trim_dropReturn (r : List Char) : trim (dropReturn r) = trim r := by
  unfold dropReturn
  split
  · next h =>
    obtain ⟨r, rfl⟩ := List.getLast?_eq_some_iff.1 h
    rw [List.dropLast_concat, trim_append_right (fun c hc => ?_)]
    rw [List.mem_singleton.1 hc]
    rfl
  · rfl

theorem trim_trimEnd (r : List Char) : trim (trimEnd r) = trim r := by
  obtain ⟨w, hw, hr⟩ := exists_trimEnd r
  conv_rhs => rw [hr, trim_append_right hw]

theorem trimEnd_prefix (r : List Char) : trimEnd r <+: r := by
  obtain ⟨w, -, hr⟩ := exists_trimEnd r
  exact ⟨w, hr.symm⟩

end Text

namespace Layout

open Text (Blank Recurs Reflows Survives trim trimEnd rows)

/-- Blanks and tabs. -/
def Indent (l : Line) : Prop := ∀ c ∈ l, Text.isIndent c = true

variable {indent lead base unit l : Line} {columns : ℕ}

theorem Indent.blank (h : Indent l) : Blank l := fun c hc => Text.isBlank_of_isIndent (h c hc)

theorem Indent.not_mem (h : Indent l) : '\n' ∉ l := fun hc => absurd (h _ hc) (by decide)

theorem Indent.indentation (hb : Indent base) (hu : Indent unit) (depth : ℕ) :
    Indent (indentation base unit depth) := forall_mem_indentation hb hu depth

/-- What `dropIndent` cuts off. -/
theorem exists_dropIndent (columns : ℕ) (l : Line) :
    ∃ v, Indent v ∧ l = v ++ dropIndent columns l := by
  induction columns generalizing l with
  | zero => exact ⟨[], fun _ h => absurd h List.not_mem_nil, rfl⟩
  | succ columns ih =>
    cases l with
    | nil => exact ⟨[], fun _ h => absurd h List.not_mem_nil, rfl⟩
    | cons c l =>
      rw [dropIndent]
      split
      · next hc =>
        obtain ⟨v, hv, hl⟩ := ih l
        exact ⟨c :: v, List.forall_mem_cons.2 ⟨hc, hv⟩, congrArg (c :: ·) hl⟩
      · exact ⟨[], fun _ h => absurd h List.not_mem_nil, rfl⟩

theorem trim_continuation (hi : Indent indent) (columns : ℕ) (l : Line) :
    trim (continuation indent columns l) = trim l := by
  rw [← Text.trim_trimEnd l]
  unfold continuation
  split
  · next h => rw [h]
  · obtain ⟨v, hv, hl⟩ := exists_dropIndent columns (trimEnd l)
    conv_rhs => rw [hl, Text.trim_append_left hv.blank]
    exact Text.trim_append_left hi.blank _

theorem not_mem_continuation (hi : Indent indent) (columns : ℕ) (h : '\n' ∉ l) :
    '\n' ∉ continuation indent columns l := by
  unfold continuation
  split
  · exact List.not_mem_nil
  · obtain ⟨v, -, hl⟩ := exists_dropIndent columns (trimEnd l)
    have htrim : '\n' ∉ trimEnd l := fun hc => h ((Text.trimEnd_prefix l).subset hc)
    rw [hl] at htrim
    exact fun hc => (List.mem_append.1 hc).elim hi.not_mem fun hc => htrim (List.mem_append_right _ hc)

theorem unlines_cons (l : Line) (lines : List Line) :
    unlines (l :: lines) = l ++ '\n' :: unlines lines := by
  simp [unlines]

/-- The lines behind the first. -/
theorem exists_reflows_continuation (hi : Indent indent) (columns : ℕ) (t : List Char) :
    ∃ u tail, unlines ((Text.lines t).map (continuation indent columns)) = u ++ tail ∧
      Reflows t u := by
  rcases Text.single_or_first t with ht | ⟨r, t', rfl, hr⟩
  · by_cases hnil : t = []
    · subst hnil
      exact ⟨[], [], rfl, .line ht ht rfl⟩
    · rw [Text.lines_of_not_mem ht hnil]
      exact ⟨_, ['\n'], unlines_cons _ [], .line ht (not_mem_continuation hi columns ht)
        (trim_continuation hi columns t).symm⟩
  · obtain ⟨u, tail, hu, hflow⟩ := exists_reflows_continuation hi columns t'
    have hdrop : '\n' ∉ Text.dropReturn r := fun hc => hr ((Text.dropReturn_prefix r).subset hc)
    refine ⟨continuation indent columns (Text.dropReturn r) ++ '\n' :: u, tail, ?_, ?_⟩
    · rw [Text.lines_append hr, List.map_cons, unlines_cons, hu, List.append_assoc,
        List.cons_append]
    · refine .more hr (not_mem_continuation hi columns hdrop) ?_ hflow
      rw [trim_continuation hi, Text.trim_dropReturn]
termination_by t.length

/-- **A text moved to a depth.** Its lines stand behind each other, with other white space at their
ends. -/
theorem exists_reflows_reindent (hi : Indent indent) (lead : Line) (columns : ℕ) (t : List Char) :
    ∃ before u tail, unlines (reindent indent lead columns t) = before ++ u ++ tail ∧
      Reflows t u := by
  have hfirst : ∀ {r : Line}, '\n' ∉ r → '\n' ∉ trimEnd r := fun h hc =>
    h ((Text.trimEnd_prefix _).subset hc)
  rcases Text.single_or_first t with ht | ⟨r, t', rfl, hr⟩
  · by_cases hnil : t = []
    · subst hnil
      exact ⟨unlines [indent ++ lead], [], [], by simp [reindent], .line ht ht rfl⟩
    · rw [reindent, Text.lines_of_not_mem ht hnil]
      refine ⟨indent ++ lead, trimEnd t, ['\n'], by simp [unlines], ?_⟩
      exact .line ht (hfirst ht) (Text.trim_trimEnd t).symm
  · obtain ⟨u, tail, hu, hflow⟩ := exists_reflows_continuation hi columns t'
    have hdrop : '\n' ∉ Text.dropReturn r := fun hc => hr ((Text.dropReturn_prefix r).subset hc)
    refine ⟨indent ++ lead, trimEnd (Text.dropReturn r) ++ '\n' :: u, tail, ?_, ?_⟩
    · rw [reindent, Text.lines_append hr]
      dsimp only
      rw [unlines_cons, hu]
      simp
    · refine .more hr (hfirst hdrop) ?_ hflow
      rw [Text.trim_trimEnd, Text.trim_dropReturn]

theorem survives_reindent (hi : Indent indent) (lead : Line) (columns : ℕ) (t : List Char) :
    Survives t (unlines (reindent indent lead columns t)) := by
  obtain ⟨before, u, tail, heq, hflow⟩ := exists_reflows_reindent hi lead columns t
  exact hflow.survives.mono ⟨before, tail, heq.symm⟩

theorem infix_unlines_of_mem {lines : List Line} (h : l ∈ lines) : l <:+: unlines lines := by
  obtain ⟨above, below, rfl⟩ := List.append_of_mem h
  exact ⟨unlines above, '\n' :: unlines below, by simp [unlines]⟩

theorem Page.Within.unlines {p q : Page} (h : p.Within q) :
    Layout.unlines p.lines <:+: Layout.unlines q.lines := by
  obtain ⟨above, below, hq⟩ := h
  rw [← hq]
  exact ⟨Layout.unlines above, Layout.unlines below, by simp [Layout.unlines]⟩

end Layout

/-! ### Statements -/

/-- The source text in an expression. -/
def Expr.sources : Expr → List String
  | .source text => [text]
  | .name _ | .bool _ | .xor .. => []

/-- The source text that the statement shows itself, apart from the one that is kept as a whole: its
condition, its headers, what follows its body, or the comment that it is. -/
def Statement.texts : Statement → List String
  | .conditional c => c.condition.sources
  | .compound c => c.header :: c.trailer.toList
  | .tryStatement t => t.header :: t.catches.map CatchClause.header
  | .labeled _ body _ => body.texts
  | .comment text _ => [text]
  | .block _ | .exit .. | .declaration .. | .assignment .. | .assertion _ | .other _ => []

namespace Layout.Printer

open Text (Survives)

variable {p : Printer} {page part : Page} {fuel depth : ℕ} {lead : Line} {s : Statement}
  {id : BlockId} {v : Verbatim} {text : String}

theorem infix_of_row_within {text line : Line} (htext : text <:+: line)
    (h : (p.row depth line).Within page) : text <:+: unlines page.lines := by
  have hrow : line <:+: p.indent depth ++ line := (List.suffix_append _ line).isInfix
  exact (htext.trans hrow).trans
    ((infix_unlines_of_mem (List.mem_singleton.2 rfl)).trans h.unlines)

/-- A header or condition is part of the line it stands on. -/
theorem survives_opening {text o : Line} (htext : text <:+: o)
    (h : p.statement (p.block fuel) (p.conditional fuel) s depth lead = .ok page)
    (ho : o ∈ s.openings lead) : Survives text (unlines page.lines) :=
  .of_isInfix (infix_of_row_within (htext.trans (List.prefix_append o _).isInfix)
    (openings_within h ho))

/-- Text that a statement shows stands in one of its rows, in a condition, or is a comment. -/
theorem exists_piece_of_mem_texts (ht : text ∈ s.texts) (lead : Line) :
    (∃ o ∈ s.openings lead, text.toList <:+: o) ∨
      (∃ row, .row row ∈ s.pieces lead ∧ text.toList <:+: row) ∨
        ∃ span lead', .comment text span lead' ∈ s.pieces lead := by
  induction s generalizing lead with
  | conditional c =>
    cases hc : c.condition with
    | source condition =>
      simp only [Statement.texts, hc, Expr.sources, List.mem_singleton] at ht
      subst ht
      refine .inl ⟨_, List.mem_singleton.2 rfl, ?_⟩
      rw [hc, exprText]
      exact ⟨lead ++ "if (".toList, [')'], rfl⟩
    | name | bool | xor => simp [Statement.texts, hc, Expr.sources] at ht
  | compound c =>
    rcases List.mem_cons.1 ht with rfl | ht
    · exact .inl ⟨_, List.mem_singleton.2 rfl, (List.suffix_append lead _).isInfix⟩
    · -- the last line
      refine .inr (.inl ⟨['}', ' '] ++ text.toList, ?_, (List.suffix_append _ _).isInfix⟩)
      simp [Statement.pieces, Piece.closing, Option.mem_toList.1 ht]
  | tryStatement t =>
    rcases List.mem_cons.1 ht with rfl | ht
    · exact .inl ⟨_, List.mem_cons_self, (List.suffix_append lead _).isInfix⟩
    · obtain ⟨c, hc, rfl⟩ := List.mem_map.1 ht
      exact .inl ⟨_, List.mem_cons_of_mem _ (List.mem_map_of_mem hc),
        (List.suffix_append ['}', ' '] _).isInfix⟩
  | labeled label t span ih => exact ih ht _
  | comment comment span =>
    obtain rfl := List.mem_singleton.1 ht
    exact .inr (.inr ⟨span, lead, List.mem_singleton_self _⟩)
  | _ => cases ht

theorem survives_text (hbase : Indent p.base) (hunit : Indent p.unit)
    (h : p.statement (p.block fuel) (p.conditional fuel) s depth lead = .ok page)
    (ht : text ∈ s.texts) : Survives text.toList (unlines page.lines) := by
  rcases exists_piece_of_mem_texts ht lead with
    ⟨o, ho, hin⟩ | ⟨row, hrow, hin⟩ | ⟨span, lead', hcomment⟩
  · exact survives_opening hin h ho
  · obtain ⟨part, hpart, hwithin⟩ := exists_piece_within h hrow
    cases hpart
    exact .of_isInfix (infix_of_row_within hin hwithin)
  · obtain ⟨part, hpart, hwithin⟩ := exists_piece_within h hcomment
    cases hpart
    exact (survives_reindent (hbase.indentation hunit depth) lead' _ _).mono hwithin.unlines

/-- Text that is kept as a whole is laid out by its lines, with the bodies in it exchanged. -/
theorem exists_reindent_verbatim
    (h : p.statement (p.block fuel) (p.conditional fuel) s depth lead = .ok page)
    (hv : v ∈ s.verbatims) : ∃ out lead, splice v.text.toList (p.inside v.range) = .ok out ∧
      page.lines = reindent (p.indent depth) lead v.span.startCol out := by
  obtain ⟨lead', hpieces⟩ := Statement.exists_pieces_of_verbatim hv lead
  rw [statement_eq_flow, hpieces, flow_singleton] at h
  obtain ⟨out, hout, h⟩ := bind_eq_ok.1 h
  cases h
  exact ⟨out, lead', mapError_eq_ok.1 hout, rfl⟩

theorem survives_verbatim (hbase : Indent p.base) (hunit : Indent p.unit)
    (h : p.statement (p.block fuel) (p.conditional fuel) s depth lead = .ok page)
    (hv : v ∈ s.verbatims) : ∃ out, splice v.text.toList (p.inside v.range) = .ok out ∧
      Survives out (unlines page.lines) := by
  obtain ⟨out, lead, hout, hlines⟩ := exists_reindent_verbatim h hv
  rw [hlines]
  exact ⟨out, hout, survives_reindent (hbase.indentation hunit depth) lead _ out⟩

end Layout.Printer

/-! ### Bodies -/

namespace Layout

open Text (Survives)

variable {body : Body} {unit base text : String} {nested : List Edit} {id : BlockId} {b : Block}
  {s : Statement}

theorem unlines_infix_frame (base : String) (lines : List Line) :
    unlines lines <:+: (frame base lines).toList :=
  ⟨['{', '\n'], base.toList ++ ['}'], by simp [frame]⟩

/-- **What a statement shows survives in the text of the body.** -/
theorem survives_of_renderBody (hbase : Indent base.toList) (hunit : Indent unit.toList)
    (h : renderBody body unit base nested = .ok text) (hr : body.Reaches Body.root id)
    (hb : body.block id = .ok b) (hs : s ∈ b.statements) :
    (∀ t ∈ s.texts, Survives t.toList text.toList) ∧
      ∀ v ∈ s.verbatims, ∃ out,
        splice v.text.toList (Printer.inside ⟨body, base.toList, unit.toList, nested⟩ v.range) =
          .ok out ∧ Survives out text.toList := by
  obtain ⟨page, rfl, b', hb', hlays⟩ := shows_of_renderBody h hr
  obtain rfl := Body.block_unique hb hb'
  obtain ⟨fuel, depth, lead, -, part, hpart, hin⟩ := hlays s hs
  have hframe : unlines part.lines <:+: (frame base page.lines).toList :=
    hin.unlines.trans (unlines_infix_frame base page.lines)
  refine ⟨fun t ht => ?_, fun v hv => ?_⟩
  · exact (Printer.survives_text hbase hunit hpart ht).mono hframe
  · obtain ⟨out, hout, hsurvives⟩ := Printer.survives_verbatim hbase hunit hpart hv
    exact ⟨out, hout, hsurvives.mono hframe⟩

end Layout

end BranchExclusion
