import BranchExclusion.Layout.Body
import BranchExclusion.Proofs.Body.Growth

/-!
# The pieces of a statement

A statement is laid out piece by piece: lines of its own, source text that it keeps, and the blocks and
the conditional that are laid out for it.

* `Piece`, `Statement.pieces`: the pieces of a statement in the order of the layout;
* `Printer.flow`: pieces laid out one after the other;
* `Printer.statement_eq_flow`: a statement is laid out by its pieces, with the same errors;
* `Statement.sum_weigh_pieces`: what is counted over the pieces is counted over the source text and
  the blocks of the statement;
* `Statement.of_mem_pieces`, `Statement.exists_piece`: what the pieces of a statement are, and that
  every block of the statement is laid out by one of them.
-/

namespace BranchExclusion.Layout

/-- What a statement is laid out by. -/
inductive Piece
  /-- A line of its own. -/
  | row (text : Line)
  /-- Source text that is kept, with `lead` before its first line. -/
  | verbatim (v : Verbatim) (lead : Line)
  | comment (text : String) (span : Span) (lead : Line)
  /-- A block, one deeper. -/
  | block (id : BlockId)
  | conditional (c : Conditional) (lead : Line)
  /-- The layout ends here, since a `do` loop has no condition. -/
  | lacking (c : Compound)

namespace Piece

/-- How a compound statement ends. -/
def closing (c : Compound) : Piece :=
  match c.trailer with
  | some trailer => .row (['}', ' '] ++ trailer.toList)
  | none => if c.kind = .doWhile then .lacking c else .row ['}']

/-- The handlers of a `try`. -/
def handlers (t : TryStatement) : List Piece :=
  (t.catches.flatMap fun c =>
    [.row (['}', ' '] ++ c.header.toList ++ [' ', '{']), .block c.body]) ++
  t.finallyBlock.toList.flatMap fun id => [.row (['}'] ++ " finally ".toList ++ ['{']), .block id]

/-- What a piece counts, when source text counts as `u` says and blocks as `w` says. -/
def weigh (u : Verbatim → ℕ) (w : BlockId → ℕ) : Piece → ℕ
  | .verbatim v _ => u v
  | .block id => w id
  | .conditional c _ => ((Statement.conditional c).childBlocks.map w).sum
  | .row _ | .comment .. | .lacking _ => 0

/-- What a piece of the statement `t` can be. -/
def Of (t : Statement) : Piece → Prop
  | .row _ | .comment .. => True
  | .verbatim v _ => v ∈ t.verbatims
  | .block id => id ∈ t.childBlocks
  | .conditional c _ => t.unlabeled = .conditional c
  | .lacking c => t.unlabeled = .compound c ∧ c.kind = .doWhile ∧ c.trailer = none

end Piece

end Layout

open Layout

namespace Statement

/-- The pieces of a statement, with `lead` before the first of them. -/
def pieces : Statement → Line → List Piece
  | .conditional c, lead => [.conditional c lead]
  | .block id, lead => [.row (lead ++ ['{']), .block id, .row ['}']]
  | .exit _ v, lead | .other v, lead => [.verbatim v lead]
  | .compound c, lead =>
    [.row (lead ++ c.header.toList ++ [' ', '{']), .block c.body, .closing c]
  | .tryStatement t, lead =>
    .row (lead ++ t.header.toList ++ [' ', '{']) :: .block t.body ::
      (Piece.handlers t ++ [.row ['}']])
  | .labeled label body _, lead => body.pieces (lead ++ label.toList ++ [':', ' '])
  | .declaration type name value, lead =>
    let assigned := match value with
      | some value => " = ".toList ++ exprText value
      | none => []
    [.row (lead ++ type.toList ++ [' '] ++ name.toList ++ assigned ++ [';'])]
  | .assignment target value, lead =>
    [.row (lead ++ target.toList ++ " = ".toList ++ exprText value ++ [';'])]
  | .assertion condition, lead => [.row (lead ++ "assert ".toList ++ exprText condition ++ [';'])]
  | .comment text span, lead => [.comment text span lead]

variable {t : Statement} {lead : Line}

/-- What is counted over the pieces of a statement is counted over its source text and its blocks. -/
theorem sum_weigh_pieces (u : Verbatim → ℕ) (w : BlockId → ℕ) (t : Statement) (lead : Line) :
    ((t.pieces lead).map (Piece.weigh u w)).sum =
      (t.verbatims.map u).sum + (t.childBlocks.map w).sum := by
  induction t generalizing lead with
  | labeled label t span ih => exact ih _
  | compound c =>
    have hclosing : (Piece.closing c).weigh u w = 0 := by
      unfold Piece.closing
      split
      · rfl
      · split <;> rfl
    rw [pieces, List.map_cons, List.map_cons, List.map_singleton, hclosing]
    simp [verbatims, Piece.weigh]
  | tryStatement t =>
    have hcatches : ((t.catches.flatMap fun c =>
        [.row (['}', ' '] ++ c.header.toList ++ [' ', '{']), .block c.body]).map
          (Piece.weigh u w)).sum = (t.catches.map fun c => w c.body).sum := by
      induction t.catches with
      | nil => rfl
      | cons c catches ih =>
        rw [List.flatMap_cons, List.map_append, List.sum_append, ih]
        simp [Piece.weigh]
    have hfinal : ((t.finallyBlock.toList.flatMap fun id =>
        [.row (['}'] ++ " finally ".toList ++ ['{']), .block id]).map (Piece.weigh u w)).sum =
          (t.finallyBlock.toList.map w).sum := by
      cases t.finallyBlock <;> simp [Piece.weigh]
    simp only [pieces, Piece.handlers, List.map_cons, List.map_append, List.sum_cons,
      List.sum_append, hcatches, hfinal, verbatims, childBlocks_tryStatement, TryStatement.blocks]
    simp [Piece.weigh, Function.comp_def]
  | _ => simp [pieces, verbatims, childBlocks, Piece.weigh]

/-- A piece of a statement shows source text of the statement, or is laid out for a block that it owns
or for the conditional or loop that it is, maybe behind labels. -/
theorem of_mem_pieces {q : Piece} (hq : q ∈ t.pieces lead) : q.Of t := by
  induction t generalizing lead with
  | labeled label t span ih =>
    have h := ih hq
    cases q <;> exact h
  | compound c =>
    simp only [pieces, List.mem_cons, List.not_mem_nil, or_false] at hq
    rcases hq with rfl | rfl | rfl
    · exact trivial
    · exact List.mem_singleton_self _
    · unfold Piece.closing
      cases htrailer : c.trailer with
      | some trailer => exact trivial
      | none =>
        by_cases hkind : c.kind = .doWhile
        · simp only [hkind, if_true]
          exact ⟨rfl, hkind, htrailer⟩
        · simp only [hkind, if_false]
          exact trivial
  | tryStatement t =>
    simp only [pieces, Piece.handlers, List.mem_cons, List.mem_append, List.mem_flatMap,
      Option.mem_toList, List.not_mem_nil, or_false] at hq
    have hcatch {c : CatchClause} (hc : c ∈ t.catches) : c.body ∈ t.catches.map CatchClause.body :=
      List.mem_map_of_mem hc
    rcases hq with rfl | rfl | (⟨c, hc, rfl | rfl⟩ | ⟨x, hx, rfl | rfl⟩) | rfl
    · exact trivial
    · exact List.mem_cons_self
    · exact trivial
    · exact List.mem_cons_of_mem _ (List.mem_append_left _ (hcatch hc))
    · exact trivial
    · exact List.mem_cons_of_mem _ (List.mem_append_right _ (Option.mem_toList.2 hx))
    · exact trivial
  | block id =>
    simp only [pieces, List.mem_cons, List.not_mem_nil, or_false] at hq
    rcases hq with rfl | rfl | rfl
    · exact trivial
    · exact List.mem_singleton_self _
    · exact trivial
  | conditional c =>
    obtain rfl := List.mem_singleton.1 hq
    rfl
  | exit kind v =>
    obtain rfl := List.mem_singleton.1 hq
    exact List.mem_singleton_self _
  | other v =>
    obtain rfl := List.mem_singleton.1 hq
    exact List.mem_singleton_self _
  | _ =>
    obtain rfl := List.mem_singleton.1 hq
    exact trivial

/-- A conditional is laid out by itself. -/
theorem exists_pieces_of_conditional {c : Conditional} (hc : t.unlabeled = .conditional c)
    (lead : Line) : ∃ lead', t.pieces lead = [.conditional c lead'] := by
  induction t generalizing lead with
  | conditional d =>
    cases hc
    exact ⟨lead, rfl⟩
  | labeled label t span ih => exact ih hc _
  | _ => cases hc

/-- So is source text that is kept. -/
theorem exists_pieces_of_verbatim {v : Verbatim} (hv : v ∈ t.verbatims) (lead : Line) :
    ∃ lead', t.pieces lead = [.verbatim v lead'] := by
  induction t generalizing lead with
  | exit kind w =>
    obtain rfl := List.mem_singleton.1 hv
    exact ⟨lead, rfl⟩
  | other w =>
    obtain rfl := List.mem_singleton.1 hv
    exact ⟨lead, rfl⟩
  | labeled label t span ih => exact ih hv _
  | _ => cases hv

/-- A `do` loop without condition ends the layout. -/
theorem lacking_mem_pieces {c : Compound} (hc : t.unlabeled = .compound c)
    (hkind : c.kind = .doWhile) (htrailer : c.trailer = none) (lead : Line) :
    .lacking c ∈ t.pieces lead := by
  induction t generalizing lead with
  | compound d =>
    cases hc
    simp [pieces, Piece.closing, hkind, htrailer]
  | labeled label t span ih => exact ih hc _
  | _ => cases hc

/-- Every block of the statement is laid out by a piece, as a block or with the conditional that the
statement is. -/
theorem exists_piece {x : BlockId} (hx : x ∈ t.childBlocks) (lead : Line) :
    .block x ∈ t.pieces lead ∨
      ∃ c lead', t.unlabeled = .conditional c ∧ .conditional c lead' ∈ t.pieces lead := by
  induction t generalizing lead with
  | conditional c => exact .inr ⟨c, lead, rfl, List.mem_singleton_self _⟩
  | labeled label t span ih => exact ih hx _
  | block id =>
    obtain rfl := List.mem_singleton.1 hx
    simp [pieces]
  | compound c =>
    obtain rfl := List.mem_singleton.1 hx
    simp [pieces]
  | tryStatement t =>
    simp only [childBlocks_tryStatement, TryStatement.blocks, List.mem_cons, List.mem_append,
      List.mem_map, Option.mem_toList] at hx
    left
    simp only [pieces, Piece.handlers, List.mem_cons, List.mem_append, List.mem_flatMap,
      Option.mem_toList]
    rcases hx with rfl | ⟨c, hc, rfl⟩ | hx
    · exact .inr (.inl rfl)
    · exact .inr (.inr (.inl (.inl ⟨c, hc, by simp⟩)))
    · exact .inr (.inr (.inl (.inr ⟨x, hx, by simp⟩)))
  | _ => cases hx

end Statement

namespace Layout

/-! ### Pages one after the other -/

namespace Page

theorem append_assoc (p q r : Page) : p ++ q ++ r = p ++ (q ++ r) := by
  show append (append p q) r = append p (append q r)
  simp [append, Nat.add_assoc]

theorem append_empty (p : Page) : p ++ empty = p := by
  show append p empty = p
  simp [append, empty]

theorem empty_append (p : Page) : empty ++ p = p := by
  show append empty p = p
  simp [append, empty]

end Page

namespace Printer

theorem concat_cons (p : Page) (pages : List Page) : concat (p :: pages) = p ++ concat pages := by
  have go : ∀ (pages : List Page) (a b : Page), pages.foldl Page.append (a ++ b) =
      a ++ pages.foldl Page.append b := by
    intro pages
    induction pages with
    | nil => exact fun _ _ => rfl
    | cons q pages ih =>
      intro a b
      have hassoc : Page.append (a ++ b) q = a ++ Page.append b q := Page.append_assoc a b q
      rw [List.foldl_cons, List.foldl_cons, hassoc, ih]
  have hleft : Page.append Page.empty p = p ++ Page.empty :=
    (Page.empty_append p).trans (Page.append_empty p).symm
  rw [concat, List.foldl_cons, hleft, go]
  rfl

theorem concat_append (pages rest : List Page) :
    concat (pages ++ rest) = concat pages ++ concat rest := by
  induction pages with
  | nil => exact (Page.empty_append _).symm
  | cons p pages ih => rw [List.cons_append, concat_cons, ih, concat_cons, Page.append_assoc]

theorem lines_concat (pages : List Page) :
    (concat pages).lines = pages.flatMap Page.lines := by
  induction pages with
  | nil => rfl
  | cons q pages ih => rw [concat_cons, Page.lines_append, ih, List.flatMap_cons]

variable (p : Printer) (block : BlockId → ℕ → Except RenderError Page)
  (conditional : Conditional → ℕ → Line → Except RenderError Page) (depth : ℕ)

/-! ### Pieces one after the other -/

/-- The lines of a piece. -/
def piece : Piece → Except RenderError Page
  | .row text => .ok (p.row depth text)
  | .verbatim v lead => p.verbatim v depth lead
  | .comment text span lead => .ok ⟨reindent (p.indent depth) lead span.startCol text.toList, 0⟩
  | .block id => block id (depth + 1)
  | .conditional c lead => conditional c depth lead
  | .lacking c => .error (.noCondition c.header c.span.startLine)

/-- The lines of pieces, one after the other. -/
def flow (l : List Piece) : Except RenderError Page := do
  return concat (← l.mapM (p.piece block conditional depth))

theorem flow_cons (q : Piece) (l : List Piece) : p.flow block conditional depth (q :: l) =
    p.piece block conditional depth q >>= fun first =>
      p.flow block conditional depth l >>= fun rest => .ok (first ++ rest) := by
  rw [flow, List.mapM_cons, flow]
  cases p.piece block conditional depth q with
  | error e => rfl
  | ok first =>
    cases l.mapM (p.piece block conditional depth) with
    | error e => rfl
    | ok rest => exact congrArg Except.ok (concat_cons first rest)

theorem flow_append (l m : List Piece) : p.flow block conditional depth (l ++ m) =
    p.flow block conditional depth l >>= fun first =>
      p.flow block conditional depth m >>= fun rest => .ok (first ++ rest) := by
  induction l with
  | nil =>
    cases h : p.flow block conditional depth m with
    | error e => exact h
    | ok rest => exact h.trans (congrArg Except.ok (Page.empty_append rest).symm)
  | cons q l ih =>
    rw [List.cons_append, flow_cons, flow_cons, ih]
    cases p.piece block conditional depth q with
    | error e => rfl
    | ok first =>
      cases p.flow block conditional depth l with
      | error e => rfl
      | ok second =>
        cases p.flow block conditional depth m with
        | error e => rfl
        | ok rest => exact congrArg Except.ok (Page.append_assoc first second rest).symm

theorem flow_singleton (q : Piece) : p.flow block conditional depth [q] =
    p.piece block conditional depth q := by
  rw [flow_cons]
  cases p.piece block conditional depth q with
  | error e => rfl
  | ok first => exact congrArg Except.ok (Page.append_empty first)

/-- A clause of a `try` is laid out by its row and its block, and so are all clauses. -/
theorem flow_catches (catches : List CatchClause) : p.flow block conditional depth
    (catches.flatMap fun c =>
      [.row (['}', ' '] ++ c.header.toList ++ [' ', '{']), .block c.body]) =
    (catches.mapM fun c => do
      return p.row depth (['}', ' '] ++ c.header.toList ++ [' ', '{']) ++
        (← block c.body (depth + 1))) >>= fun pages => .ok (concat pages) := by
  induction catches with
  | nil => rfl
  | cons c catches ih =>
    rw [List.flatMap_cons, flow_append, ih, flow_cons, flow_singleton, List.mapM_cons]
    simp only [piece, ok_bind]
    cases block c.body (depth + 1) with
    | error e => rfl
    | ok q =>
      simp only [ok_bind, pure_eq_ok]
      generalize (catches.mapM _ : Except RenderError (List Page)) = rest
      cases rest with
      | error e => rfl
      | ok pages => exact congrArg Except.ok (concat_cons _ pages).symm

theorem flow_finally (o : Option BlockId) : p.flow block conditional depth
    (o.toList.flatMap fun id => [.row (['}'] ++ " finally ".toList ++ ['{']), .block id]) =
    (o.mapM fun id => do
      return p.row depth (['}'] ++ " finally ".toList ++ ['{']) ++ (← block id (depth + 1))) >>=
        fun final => .ok (final.getD Page.empty) := by
  cases o with
  | none => rfl
  | some id =>
    rw [Option.toList_some, List.flatMap_singleton, flow_cons, flow_singleton, Option.mapM_some,
      map_eq_pure_bind]
    simp only [piece, ok_bind]
    cases block id (depth + 1) <;> rfl

/-- **A statement is laid out by its pieces**, and when it cannot be, it is for the first piece that
cannot be. -/
theorem statement_eq_flow (t : Statement) (lead : Line) :
    p.statement block conditional t depth lead =
      p.flow block conditional depth (t.pieces lead) := by
  have hone {t : Statement} {lead : Line} {q : Piece} (hpieces : t.pieces lead = [q])
      (hq : p.statement block conditional t depth lead = p.piece block conditional depth q) :
      p.statement block conditional t depth lead =
        p.flow block conditional depth (t.pieces lead) := by
    rw [hq, hpieces, flow_singleton]
  induction t generalizing lead with
  | conditional c => exact hone rfl rfl
  | exit kind v => exact hone rfl rfl
  | other v => exact hone rfl rfl
  | labeled label t span ih => exact ih _
  | block id =>
    rw [Statement.pieces, flow_cons, flow_cons, flow_singleton]
    simp only [Printer.statement, piece, ok_bind, pure_eq_ok]
    cases block id (depth + 1) with
    | error e => rfl
    | ok q => exact congrArg Except.ok (Page.append_assoc ..)
  | compound c =>
    rw [Statement.pieces, flow_cons, flow_cons, flow_singleton]
    simp only [Printer.statement, piece, ok_bind]
    cases block c.body (depth + 1) with
    | error e => rfl
    | ok q =>
      unfold Piece.closing
      cases c.trailer with
      | some trailer => exact congrArg Except.ok (Page.append_assoc ..)
      | none =>
        by_cases hkind : c.kind = .doWhile
        · simp only [hkind, if_true]
          rfl
        · simp only [hkind, if_false]
          exact congrArg Except.ok (Page.append_assoc ..)
  | tryStatement t =>
    rw [Statement.pieces, flow_cons, flow_cons, Piece.handlers, flow_append, flow_append,
      flow_catches, flow_finally, flow_singleton]
    simp only [Printer.statement, piece, ok_bind]
    cases block t.body (depth + 1) with
    | error e => rfl
    | ok q =>
      simp only [ok_bind, pure_eq_ok]
      generalize (t.catches.mapM _ : Except RenderError (List Page)) = catches
      generalize (t.finallyBlock.mapM _ : Except RenderError (Option Page)) = final
      cases catches with
      | error e => rfl
      | ok pages =>
        cases final with
        | error e => rfl
        | ok o =>
          simp only [ok_bind, Page.append_assoc]
  | declaration type name value => exact hone rfl rfl
  | assignment target value => exact hone rfl rfl
  | assertion condition => exact hone rfl rfl
  | comment text span => exact hone rfl rfl

end Printer

end Layout

end BranchExclusion
