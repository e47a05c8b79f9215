import BranchExclusion.Proofs.Layout.Shown
import BranchExclusion.Proofs.Method.Assertions
import BranchExclusion.Proofs.Source.Splice

/-!
# The parts of a layout

A block is laid out by its statements, and a statement by lines and blocks, or, where an alternative
is a rung of a ladder, by the conditional that goes on from there.

* `Body.rung?`: the conditional that a block holds and nothing else;
* `Part`, `Printer.parts`: what a layout goes through, one step at a time;
* `Printer.statementParts_eq`: the parts of a statement are those of its pieces;
* `Printer.lay_parts`: the lines of a part are those of its parts;
* `Printer.lay_induction`: what holds of lines and goes from the parts of a part to the part holds of
  all lines that are laid out.
-/

namespace BranchExclusion

open Layout

/-- The conditional that the block consists of. -/
def Body.rung? (body : Body) (x : BlockId) : Option Conditional :=
  match body.statementsAt x with
  | [.conditional c] => some c
  | _ => none

theorem Body.rung?_eq_some {body : Body} {x : BlockId} {b : Block} {c : Conditional}
    (hb : body.block x = .ok b) : body.rung? x = some c ↔ b.statements = [.conditional c] := by
  rw [rung?, statementsAt_eq hb]
  split
  · next d hd => simp [hd]
  · next h =>
    constructor
    · intro hnone
      cases hnone
    · exact fun hc => absurd hc (h c)

theorem Body.mem_statementsAt {body : Body} {id : BlockId} {t : Statement} :
    t ∈ body.statementsAt id ↔ ∃ b, body.block id = .ok b ∧ t ∈ b.statements := by
  cases hb : body.block id with
  | error e => simp [statementsAt, hb, Except.toOption]
  | ok b => simp [statementsAt_eq hb]

theorem Body.exists_block_of_rung? {body : Body} {x : BlockId} {c : Conditional}
    (h : body.rung? x = some c) : ∃ b, body.block x = .ok b ∧ b.statements = [.conditional c] := by
  cases hb : body.block x with
  | error e => simp [rung?, statementsAt, hb, Except.toOption] at h
  | ok b => exact ⟨b, rfl, (rung?_eq_some hb).1 h⟩

namespace Layout

/-- What a layout goes through: a line, the statements of a block, or a statement behind `lead`. -/
inductive Part
  | row (l : Line)
  | block (id : BlockId) (depth : ℕ)
  | statement (t : Statement) (depth : ℕ) (lead : Line)

namespace Part

/-- The steps that are spent on the part itself. -/
def cost : Part → ℕ
  | row _ => 0
  | block .. => 1
  | statement t .. => if t.unlabeled.conditional?.isSome then 1 else 0

/-- A statement that spends no step consists of lines and blocks. -/
def rank : Part → ℕ
  | row _ | block .. => 0
  | statement .. => 1

end Part

namespace Printer

variable {p : Printer} {k depth : ℕ} {lead : Line} {page : Page}

/-- The lines of a part, laid out with `k` steps. -/
def lay (p : Printer) (k : ℕ) : Part → Except RenderError Page
  | .row l => .ok (.line l)
  | .block id depth => p.block k id depth
  | .statement t depth lead => p.statement (p.block k) (p.conditional k) t depth lead

/-- A line of some depth. -/
def rowPart (p : Printer) (depth : ℕ) (text : Line) : Part := .row (p.indent depth ++ text)

/-- What follows the true branch of a conditional. -/
def alternativeParts (p : Printer) (depth : ℕ) : Option BlockId → List Part
  | none => [p.rowPart depth ['}']]
  | some x =>
    match p.body.rung? x with
    | some rung => [.statement (.conditional rung) depth (['}'] ++ " else ".toList)]
    | none =>
      [p.rowPart depth (['}'] ++ " else ".toList ++ ['{']), .block x (depth + 1),
        p.rowPart depth ['}']]

/-- The line that ends a statement around one block. -/
def closing : Option String → Line
  | some trailer => ['}', ' '] ++ trailer.toList
  | none => ['}']

/-- What the handlers of a `try` consist of. -/
def handlerParts (p : Printer) (depth : ℕ) (t : TryStatement) : List Part :=
  (t.catches.flatMap fun c =>
    [p.rowPart depth (['}', ' '] ++ c.header.toList ++ [' ', '{']), .block c.body (depth + 1)]) ++
  t.finallyBlock.toList.flatMap fun id =>
    [p.rowPart depth (['}'] ++ " finally ".toList ++ ['{']), .block id (depth + 1)]

/-- What a statement consists of. -/
def statementParts (p : Printer) (depth : ℕ) : Statement → Line → List Part
  | .conditional c, lead =>
    p.rowPart depth (lead ++ "if (".toList ++ exprText c.condition ++ [')', ' ', '{']) ::
      (c.thenBranch.toList.map fun id => .block id (depth + 1)) ++
        p.alternativeParts depth c.elseBranch
  | .block id, lead =>
    [p.rowPart depth (lead ++ ['{']), .block id (depth + 1), p.rowPart depth ['}']]
  | .exit _ v, lead => (reindent (p.indent depth) lead v.span.startCol v.text.toList).map .row
  | .compound c, lead =>
    [p.rowPart depth (lead ++ c.header.toList ++ [' ', '{']), .block c.body (depth + 1),
      p.rowPart depth (closing c.trailer)]
  | .tryStatement t, lead =>
    p.rowPart depth (lead ++ t.header.toList ++ [' ', '{']) :: .block t.body (depth + 1) ::
      (p.handlerParts depth t ++ [p.rowPart depth ['}']])
  | .labeled label t _, lead => p.statementParts depth t (lead ++ label.toList ++ [':', ' '])
  | .declaration type name value, lead =>
    let assigned := match value with
      | some value => " = ".toList ++ exprText value
      | none => []
    [p.rowPart depth (lead ++ type.toList ++ [' '] ++ name.toList ++ assigned ++ [';'])]
  | .assignment target value, lead =>
    [p.rowPart depth (lead ++ target.toList ++ " = ".toList ++ exprText value ++ [';'])]
  | .assertion condition, lead =>
    [p.rowPart depth (lead ++ "assert ".toList ++ exprText condition ++ [';'])]
  | .comment text span, lead =>
    (reindent (p.indent depth) lead span.startCol text.toList).map .row
  | .other v, lead => (reindent (p.indent depth) lead v.span.startCol v.text.toList).map .row

/-- What a part consists of. A line has no parts. -/
def parts (p : Printer) : Part → List Part
  | .row _ => []
  | .block id depth => (p.body.statementsAt id).map fun t => .statement t depth []
  | .statement t depth lead => p.statementParts depth t lead

/-- What a piece of a statement consists of. -/
def pieceParts (p : Printer) (depth : ℕ) : Piece → List Part
  | .row text => [p.rowPart depth text]
  | .verbatim v lead => (reindent (p.indent depth) lead v.span.startCol v.text.toList).map .row
  | .comment text span lead => (reindent (p.indent depth) lead span.startCol text.toList).map .row
  | .block id => [.block id (depth + 1)]
  | .conditional c lead => p.statementParts depth (.conditional c) lead
  | .lacking _ => [p.rowPart depth ['}']]

/-- The parts of a statement are those of its pieces. -/
theorem statementParts_eq (t : Statement) (lead : Line) :
    p.statementParts depth t lead = (t.pieces lead).flatMap (p.pieceParts depth) := by
  induction t generalizing lead with
  | labeled label t span ih => exact ih _
  | compound c =>
    have hclosing : p.pieceParts depth (Piece.closing c) = [p.rowPart depth (closing c.trailer)] := by
      unfold Piece.closing closing
      cases c.trailer with
      | some trailer => rfl
      | none => by_cases hkind : c.kind = .doWhile <;> simp [hkind, pieceParts]
    rw [Statement.pieces, List.flatMap_cons, List.flatMap_cons, List.flatMap_singleton, hclosing]
    rfl
  | tryStatement t =>
    have hhandlers : (Piece.handlers t).flatMap (p.pieceParts depth) = p.handlerParts depth t := by
      rw [Piece.handlers, List.flatMap_append, List.flatMap_assoc, List.flatMap_assoc]
      rfl
    simp [statementParts, Statement.pieces, hhandlers, pieceParts]
  | declaration type name value => rfl
  | _ => simp [statementParts, Statement.pieces, pieceParts]

/-- A conditional behind labels consists of what the conditional alone does. -/
theorem exists_statementParts_eq {t : Statement} {c : Conditional}
    (hc : t.unlabeled = .conditional c) (p : Printer) (depth : ℕ) (lead : Line) :
    ∃ lead', p.statementParts depth t lead = p.statementParts depth (.conditional c) lead' := by
  obtain ⟨lead', hpieces⟩ := Statement.exists_pieces_of_conditional hc lead
  refine ⟨lead', ?_⟩
  rw [statementParts_eq, hpieces, List.flatMap_singleton]
  rfl

/-- The parts, laid out with `k` steps each, give these pages. -/
abbrev Laid (p : Printer) (k : ℕ) : List Part → List Page → Prop :=
  List.Forall₂ fun q page => p.lay k q = .ok page

/-- The parts have these lines, one after the other. -/
def Yields (p : Printer) (k : ℕ) (parts : List Part) (lines : List Line) : Prop :=
  ∃ pages, p.Laid k parts pages ∧ lines = pages.flatMap Page.lines

theorem Yields.append {ps qs : List Part} {l m : List Line} (h : p.Yields k ps l)
    (h' : p.Yields k qs m) : p.Yields k (ps ++ qs) (l ++ m) := by
  obtain ⟨pages, hpages, rfl⟩ := h
  obtain ⟨pages', hpages', rfl⟩ := h'
  exact ⟨pages ++ pages', List.rel_append hpages hpages', List.flatMap_append.symm⟩

theorem Yields.nil : p.Yields k [] [] := ⟨[], .nil, rfl⟩

theorem Yields.one {q : Part} (h : p.lay k q = .ok page) : p.Yields k [q] page.lines :=
  ⟨[page], .cons h .nil, by simp⟩

theorem Yields.cons {q : Part} {qs : List Part} {m : List Line} (h : p.lay k q = .ok page)
    (h' : p.Yields k qs m) : p.Yields k (q :: qs) (page.lines ++ m) := (Yields.one h).append h'

theorem Yields.row {text : Line} {qs : List Part} {m : List Line} (h : p.Yields k qs m) :
    p.Yields k (p.rowPart depth text :: qs) ((p.row depth text).lines ++ m) := .cons rfl h

theorem Yields.rows (lines : List Line) : p.Yields k (lines.map .row) lines := by
  induction lines with
  | nil => exact .nil
  | cons l lines ih =>
    have hline : p.lay k (.row l) = .ok (.line l) := rfl
    exact .cons hline ih

theorem yields_alternative {top : Page} {o : Option BlockId}
    (h : p.alternative k depth top o = .ok page) :
    ∃ lines, p.Yields k (p.alternativeParts depth o) lines ∧ page.lines = top.lines ++ lines := by
  cases o with
  | none =>
    cases h
    exact ⟨_, .row .nil, by simp⟩
  | some x =>
    cases hb : p.body.block x with
    | error f =>
      rw [alternative, hb] at h
      cases h
    | ok b =>
      cases hrung : p.body.rung? x with
      | some rung =>
        rw [alternative_rung hb ((Body.rung?_eq_some hb).1 hrung), bind_eq_ok] at h
        obtain ⟨q, hq, h⟩ := h
        cases h
        rw [alternativeParts, hrung]
        exact ⟨_, .one hq, rfl⟩
      | none =>
        have hne : ∀ rung, b.statements ≠ [.conditional rung] := by
          intro rung hs
          rw [(Body.rung?_eq_some hb).2 hs] at hrung
          cases hrung
        rw [alternative_block hb hne, bind_eq_ok] at h
        obtain ⟨q, hq, h⟩ := h
        cases h
        rw [alternativeParts, hrung]
        exact ⟨_, .row (.cons hq (.row .nil)), by simp [List.append_assoc]⟩

theorem yields_conditional {c : Conditional} (h : p.conditional k c depth lead = .ok page) :
    ∃ k', k' + 1 = k ∧ p.Yields k' (p.statementParts depth (.conditional c) lead) page.lines := by
  cases k with
  | zero => cases h
  | succ k =>
    rw [conditional_succ] at h
    obtain ⟨q, hq, h⟩ := bind_eq_ok.1 h
    obtain ⟨lines, hlines, hpage⟩ := yields_alternative h
    refine ⟨k, rfl, ?_⟩
    rw [hpage, statementParts, Page.lines_append, List.append_assoc]
    refine .row (Yields.append ?_ hlines)
    cases hthen : c.thenBranch with
    | none =>
      rw [hthen] at hq
      cases hq
      exact .nil
    | some x =>
      rw [hthen] at hq
      exact .one (q := .block x (depth + 1)) hq

theorem yields_piece (hnested : p.nested = []) {q : Piece} (hq : ∀ c lead, q ≠ .conditional c lead)
    (h : p.piece (p.block k) (p.conditional k) depth q = .ok page) :
    p.Yields k (p.pieceParts depth q) page.lines := by
  cases q with
  | row text =>
    cases h
    exact .row .nil
  | verbatim v lead =>
    have hlaid : p.verbatim v depth lead = .ok page := h
    rw [verbatim, inside_eq_nil hnested, splice_nil] at hlaid
    cases hlaid
    exact .rows _
  | comment text span lead =>
    cases h
    exact .rows _
  | block id => exact .one (q := .block id (depth + 1)) h
  | conditional c lead => exact absurd rfl (hq c lead)
  | lacking c => cases h

theorem yields_pieces (hnested : p.nested = []) {l : List Piece} {pages : List Page}
    (hl : ∀ q ∈ l, ∀ c lead, q ≠ .conditional c lead)
    (h : List.Forall₂ (fun q page => p.piece (p.block k) (p.conditional k) depth q = .ok page) l
      pages) : p.Yields k (l.flatMap (p.pieceParts depth)) (pages.flatMap Page.lines) := by
  induction h with
  | nil => exact .nil
  | cons hq _ ih =>
    rw [List.flatMap_cons, List.flatMap_cons]
    exact (yields_piece hnested (hl _ List.mem_cons_self) hq).append
      (ih fun q hq => hl q (List.mem_cons_of_mem _ hq))

/-- A statement that is laid out is laid out by its parts. -/
theorem yields_statement (hnested : p.nested = []) {t : Statement}
    (h : p.statement (p.block k) (p.conditional k) t depth lead = .ok page) :
    ∃ k', k' + (Part.statement t depth lead).cost = k ∧
      p.Yields k' (p.statementParts depth t lead) page.lines := by
  rw [statement_eq_flow] at h
  cases hconditional : t.unlabeled.conditional? with
  | some c =>
    -- the conditional spends the step
    obtain ⟨lead', hpieces⟩ := Statement.exists_pieces_of_conditional
      (Statement.conditional?_eq_some.1 hconditional) lead
    rw [hpieces, flow_singleton] at h
    obtain ⟨k', hk, hyields⟩ := yields_conditional h
    refine ⟨k', by simpa [Part.cost, hconditional] using hk, ?_⟩
    rw [statementParts_eq, hpieces, List.flatMap_singleton]
    exact hyields
  | none =>
    refine ⟨k, by simp [Part.cost, hconditional], ?_⟩
    obtain ⟨pages, hpages, h⟩ := bind_eq_ok.1 h
    cases h
    have hne : ∀ q ∈ t.pieces lead, ∀ c lead', q ≠ .conditional c lead' := by
      rintro _ hq c lead' rfl
      rw [Statement.of_mem_pieces hq] at hconditional
      cases hconditional
    rw [statementParts_eq, lines_concat]
    exact yields_pieces hnested hne (mapM_eq_ok.1 hpages)

/-- **A part is laid out by its parts.** -/
theorem lay_parts (hnested : p.nested = []) {part : Part} (hrow : ∀ l, part ≠ .row l)
    (h : p.lay k part = .ok page) :
    ∃ k', k' + part.cost = k ∧ p.Yields k' (p.parts part) page.lines := by
  cases part with
  | row l => exact absurd rfl (hrow l)
  | statement t depth lead => exact yields_statement hnested h
  | block id depth =>
    cases k with
    | zero => cases h
    | succ k =>
      rw [lay, Printer.block] at h
      obtain ⟨b, hb, h⟩ := bind_eq_ok.1 h
      obtain ⟨pages, hpages, h⟩ := bind_eq_ok.1 h
      cases h
      refine ⟨k, rfl, pages, ?_, lines_concat pages⟩
      rw [parts, Body.statementsAt_eq (mapError_eq_ok.1 hb)]
      exact List.forall₂_map_left_iff.2 (mapM_eq_ok.1 hpages)

/-- A statement consists of lines, of the blocks that it owns, and of the rung that its alternative
is. -/
theorem mem_statementParts {t : Statement} {q : Part} (hq : q ∈ p.statementParts depth t lead) :
    (∃ l, q = .row l) ∨ (∃ x ∈ t.childBlocks, q = .block x (depth + 1)) ∨
      ∃ c x rung, t.unlabeled = .conditional c ∧ c.elseBranch = some x ∧
        p.body.rung? x = some rung ∧
        q = .statement (.conditional rung) depth (['}'] ++ " else ".toList) := by
  have hrow : ∀ {lines : List Line}, q ∈ lines.map Part.row → ∃ l, q = .row l := by
    intro lines hq
    obtain ⟨l, -, rfl⟩ := List.mem_map.1 hq
    exact ⟨l, rfl⟩
  have hchild {x : BlockId} (hx : x ∈ t.childBlocks) (hq : q = .block x (depth + 1)) :
      ∃ x ∈ t.childBlocks, q = .block x (depth + 1) := ⟨x, hx, hq⟩
  rw [statementParts_eq] at hq
  obtain ⟨r, hr, hq⟩ := List.mem_flatMap.1 hq
  have hof := Statement.of_mem_pieces hr
  cases r with
  | row text => exact .inl ⟨_, List.mem_singleton.1 hq⟩
  | lacking c => exact .inl ⟨_, List.mem_singleton.1 hq⟩
  | verbatim v lead' => exact .inl (hrow hq)
  | comment text span lead' => exact .inl (hrow hq)
  | block x => exact .inr (.inl (hchild hof (List.mem_singleton.1 hq)))
  | conditional c lead' =>
    have hc : t.unlabeled = .conditional c := hof
    have hblocks : t.childBlocks = c.thenBranch.toList ++ c.elseBranch.toList := by
      rw [← t.childBlocks_unlabeled, hc, Statement.childBlocks_conditional]
    rw [pieceParts, statementParts, List.cons_append, List.mem_cons, List.mem_append] at hq
    rcases hq with rfl | hq | hq
    · exact .inl ⟨_, rfl⟩
    · obtain ⟨x, hx, rfl⟩ := List.mem_map.1 hq
      exact .inr (.inl (hchild (by simp [hblocks, Option.mem_toList.1 hx]) rfl))
    · cases helse : c.elseBranch with
      | none =>
        rw [helse] at hq
        exact .inl ⟨_, List.mem_singleton.1 hq⟩
      | some x =>
        rw [helse, alternativeParts] at hq
        cases hrung : p.body.rung? x with
        | some rung =>
          rw [hrung] at hq
          exact .inr (.inr ⟨c, x, rung, hc, helse, hrung, List.mem_singleton.1 hq⟩)
        | none =>
          simp only [hrung, List.mem_cons, List.not_mem_nil, or_false] at hq
          rcases hq with rfl | rfl | rfl
          · exact .inl ⟨_, rfl⟩
          · exact .inr (.inl (hchild (by simp [hblocks, helse]) rfl))
          · exact .inl ⟨_, rfl⟩

theorem rank_eq_zero {t : Statement} (ht : t.unlabeled.conditional?.isSome = false) {q : Part}
    (hq : q ∈ p.statementParts depth t lead) : q.rank = 0 := by
  rcases mem_statementParts hq with ⟨l, rfl⟩ | ⟨x, -, rfl⟩ | ⟨c, x, rung, hc, -⟩
  · rfl
  · rfl
  · rw [hc] at ht
    cases ht

theorem rank_parts_lt {part q : Part} (hq : q ∈ p.parts part) (k : ℕ) :
    2 * k + q.rank < 2 * (k + part.cost) + part.rank := by
  have hrank : q.rank ≤ 1 := by cases q <;> simp [Part.rank]
  cases part with
  | row l => cases hq
  | block id depth =>
    change 2 * k + q.rank < 2 * (k + 1) + 0
    omega
  | statement t depth lead =>
    change 2 * k + q.rank < 2 * (k + if t.unlabeled.conditional?.isSome then 1 else 0) + 1
    by_cases ht : t.unlabeled.conditional?.isSome = true
    · rw [if_pos ht]
      omega
    · rw [rank_eq_zero (by simpa using ht) hq, if_neg ht]
      omega

/-- What holds of a line, and of the lines of a part when it holds of those of its parts, holds of all
that is laid out. -/
theorem lay_induction (hnested : p.nested = []) {Q : Part → List Line → Prop}
    (row : ∀ l, Q (.row l) [l])
    (step : ∀ part lines, (∀ l, part ≠ .row l) → List.Forall₂ Q (p.parts part) lines →
      Q part lines.flatten)
    {part : Part} (h : p.lay k part = .ok page) : Q part page.lines := by
  induction hn : 2 * k + part.rank using Nat.strong_induction_on generalizing k part page with
  | _ n ih =>
    by_cases hrow : ∃ l, part = .row l
    · obtain ⟨l, rfl⟩ := hrow
      cases h
      exact row l
    · have hrow : ∀ l, part ≠ .row l := fun l hl => hrow ⟨l, hl⟩
      obtain ⟨k', rfl, pages, hpages, hlines⟩ := lay_parts hnested hrow h
      rw [hlines, List.flatMap_def]
      refine step part _ hrow (List.forall₂_map_right_iff.2 ?_)
      refine forall₂_imp_mem hpages fun q hq r _ hr => ?_
      exact ih _ (hn ▸ rank_parts_lt hq k') hr rfl

end Printer

end Layout

end BranchExclusion
