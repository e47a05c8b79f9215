import BranchExclusion.Proofs.Layout.Growth

/-!
# What a layout shows

Every statement of a body is laid out somewhere in the text of the body.

* `Statement.openings`: what stands on a line of the layout before the brace that opens a block;
* `Printer.Shows`: the statements of a block are laid out in a page;
* `Printer.Shows.reaches`, `shows_of_renderBody`: so are those of all blocks below it.
-/

namespace BranchExclusion

open Layout

/-- The headers and conditions of a statement as they stand on a line before an opening brace. -/
def Statement.openings : Statement → Line → List Line
  | .conditional c, lead => [lead ++ "if (".toList ++ exprText c.condition ++ [')']]
  | .compound c, lead => [lead ++ c.header.toList]
  | .tryStatement t, lead =>
    (lead ++ t.header.toList) :: t.catches.map fun c => ['}', ' '] ++ c.header.toList
  | .labeled label body _, lead => body.openings (lead ++ label.toList ++ [':', ' '])
  | _, _ => []

namespace Layout.Page

variable {p q r : Page}

/-- The lines of `p` stand together in `q`. -/
def Within (p q : Page) : Prop := p.lines <:+: q.lines

theorem Within.trans (h : p.Within q) (h' : q.Within r) : p.Within r := List.IsInfix.trans h h'

theorem Within.left (h : p.Within q) (r : Page) : p.Within (q ++ r) :=
  List.IsInfix.trans h (List.prefix_append q.lines r.lines).isInfix

theorem Within.right (h : p.Within q) (r : Page) : p.Within (r ++ q) :=
  List.IsInfix.trans h (List.suffix_append r.lines q.lines).isInfix

theorem Within.refl (p : Page) : p.Within p := List.infix_rfl

end Layout.Page

namespace Layout.Printer

variable {p : Printer} {page part : Page} {fuel depth : ℕ} {lead : Line} {s : Statement}
  {id x : BlockId} {b : Block} {c : Conditional}

/-- What stands before a statement on its first line: nothing, or the `else` of the ladder that it
is a rung of. -/
def leads : List Line := [[], ['}'] ++ " else ".toList]

/-- The statement is laid out, and its lines stand together in the page. -/
def Lays (p : Printer) (page : Page) (s : Statement) : Prop :=
  ∃ fuel depth, ∃ lead ∈ leads, ∃ part,
    p.statement (p.block fuel) (p.conditional fuel) s depth lead = .ok part ∧
      part.Within page

/-- The statements of the block are laid out in the page. -/
def Shows (p : Printer) (page : Page) (id : BlockId) : Prop :=
  ∃ b, p.body.block id = .ok b ∧ ∀ s ∈ b.statements, p.Lays page s

theorem Lays.mono (h : p.Lays part s) (hle : part.Within page) : p.Lays page s := by
  obtain ⟨fuel, depth, lead, hlead, q, hq, hin⟩ := h
  exact ⟨fuel, depth, lead, hlead, q, hq, hin.trans hle⟩

theorem Shows.mono (h : p.Shows part id) (hle : part.Within page) : p.Shows page id := by
  obtain ⟨b, hb, hs⟩ := h
  exact ⟨b, hb, fun s h => (hs s h).mono hle⟩

theorem within_concat {pages : List Page} (h : part ∈ pages) : part.Within (concat pages) := by
  induction pages with
  | nil => cases h
  | cons q pages ih =>
    rw [concat_cons]
    rcases List.mem_cons.1 h with rfl | h
    · exact (Page.Within.refl part).left _
    · exact (ih h).right q

/-- Every piece of a statement that is laid out is laid out somewhere in its lines. -/
theorem exists_piece_within {q : Piece}
    (h : p.statement (p.block fuel) (p.conditional fuel) s depth lead = .ok page)
    (hq : q ∈ s.pieces lead) : ∃ part,
      p.piece (p.block fuel) (p.conditional fuel) depth q = .ok part ∧ part.Within page := by
  rw [statement_eq_flow, flow, bind_eq_ok] at h
  obtain ⟨pages, hpages, h⟩ := h
  cases h
  obtain ⟨part, hpart, hlaid⟩ := forall₂_exists_right (mapM_eq_ok.1 hpages) hq
  exact ⟨part, hlaid, within_concat hpart⟩

theorem Shows.of_block (h : p.block fuel id depth = .ok page) : p.Shows page id := by
  cases fuel with
  | zero => cases h
  | succ fuel =>
    rw [Printer.block, bind_eq_ok] at h
    obtain ⟨b, hb, h⟩ := h
    rw [bind_eq_ok] at h
    obtain ⟨pages, hpages, h⟩ := h
    cases h
    have hblock : p.body.block id = .ok b := by
      cases hid : p.body.block id with
      | error f => rw [hid] at hb; cases hb
      | ok b' => rw [hid] at hb; cases hb; rfl
    refine ⟨b, hblock, fun s hs => ?_⟩
    obtain ⟨part, hpart, hlaid⟩ := forall₂_exists_right (mapM_eq_ok.1 hpages) hs
    exact ⟨fuel, depth, [], List.mem_cons_self, part, hlaid, within_concat hpart⟩

/-- What follows the true branch: the closing brace, a rung of the ladder or a block. -/
theorem alternative_eq_ok {top : Page} {o : Option BlockId}
    (h : p.alternative fuel depth top o = .ok page) : ∃ bottom, page = top ++ bottom ∧
      (o = none ∨ (∃ x b rung, o = some x ∧ p.body.block x = .ok b ∧
          b.statements = [.conditional rung] ∧
          p.conditional fuel rung depth (['}'] ++ " else ".toList) = .ok bottom) ∨
        ∃ x q, o = some x ∧ p.block fuel x (depth + 1) = .ok q ∧ q.Within bottom) := by
  cases o with
  | none =>
    cases h
    exact ⟨_, rfl, .inl rfl⟩
  | some x =>
    cases hb : p.body.block x with
    | error f =>
      rw [alternative, hb] at h
      cases h
    | ok b =>
      by_cases hrung : ∃ rung, b.statements = [.conditional rung]
      · obtain ⟨rung, hrung⟩ := hrung
        rw [alternative_rung hb hrung, bind_eq_ok] at h
        obtain ⟨q, hq, h⟩ := h
        cases h
        exact ⟨q, rfl, .inr (.inl ⟨x, b, rung, rfl, hb, hrung, hq⟩)⟩
      · rw [alternative_block hb fun rung h => hrung ⟨rung, h⟩, bind_eq_ok] at h
        obtain ⟨q, hq, h⟩ := h
        cases h
        refine ⟨p.row depth (['}'] ++ " else ".toList ++ ['{']) ++ q ++ p.row depth ['}'], ?_,
          .inr (.inr ⟨x, q, rfl, hq, ((Page.Within.refl q).right _).left _⟩)⟩
        rw [Page.append_assoc, Page.append_assoc, Page.append_assoc]

/-- A conditional starts with the line of its condition. -/
theorem within_conditional (h : p.conditional fuel c depth lead = .ok page) :
    (p.row depth (lead ++ "if (".toList ++ exprText c.condition ++ [')', ' ', '{'])).Within page := by
  cases fuel with
  | zero => cases h
  | succ fuel =>
    rw [conditional_succ, bind_eq_ok] at h
    obtain ⟨q, -, h⟩ := h
    obtain ⟨bottom, rfl, -⟩ := alternative_eq_ok h
    exact ((Page.Within.refl _).left q).left bottom

/-- The branches of a conditional are shown, an alternative that is a rung of the ladder by the
rung. -/
theorem Shows.of_conditional (h : p.conditional fuel c depth lead = .ok page)
    (hx : x ∈ (Statement.conditional c).childBlocks) : p.Shows page x := by
  cases fuel with
  | zero => cases h
  | succ fuel =>
    rw [conditional_succ, bind_eq_ok] at h
    obtain ⟨q, hq, h⟩ := h
    obtain ⟨bottom, rfl, hbottom⟩ := alternative_eq_ok h
    rw [Statement.childBlocks_conditional, List.mem_append, Option.mem_toList, Option.mem_toList]
      at hx
    rcases hx with hx | hx
    · rw [hx] at hq
      exact (Shows.of_block hq).mono (((Page.Within.refl q).right _).left bottom)
    · have hle := (Page.Within.refl bottom).right (p.row depth (lead ++ "if (".toList ++
        exprText c.condition ++ [')', ' ', '{']) ++ q)
      rcases hbottom with hnone | ⟨y, b, rung, hy, hb, hrung, hlaid⟩ | ⟨y, r, hy, hr, hin⟩
      · rw [hnone] at hx
        cases hx
      · obtain rfl : y = x := Option.some.inj (hy.symm.trans hx)
        refine ⟨b, hb, fun s hs => ?_⟩
        rw [hrung, List.mem_singleton] at hs
        subst hs
        exact ⟨fuel, depth, _, by simp [leads], bottom, hlaid, hle⟩
      · obtain rfl : y = x := Option.some.inj (hy.symm.trans hx)
        exact (Shows.of_block hr).mono (hin.trans hle)

/-- A statement shows the blocks that it owns. -/
theorem Shows.of_statement
    (h : p.statement (p.block fuel) (p.conditional fuel) s depth lead = .ok page)
    (hx : x ∈ s.childBlocks) : p.Shows page x := by
  rcases Statement.exists_piece hx lead with hq | ⟨c, lead', hc, hq⟩
  · obtain ⟨part, hpart, hin⟩ := exists_piece_within h hq
    exact (Shows.of_block hpart).mono hin
  · obtain ⟨part, hpart, hin⟩ := exists_piece_within h hq
    rw [← s.childBlocks_unlabeled, hc] at hx
    exact (Shows.of_conditional hpart hx).mono hin

/-- A page shows all blocks below one that it shows. -/
theorem Shows.reaches (h : p.Shows page id) (hr : p.body.Reaches id x) : p.Shows page x := by
  induction hr with
  | self => exact h
  | child _ hchild ih =>
    obtain ⟨b, hb, hs⟩ := ih
    obtain ⟨b', hb', hx⟩ := hchild
    obtain rfl := Body.block_unique hb hb'
    obtain ⟨s, hmem, hx⟩ := List.mem_flatMap.1 hx
    obtain ⟨fuel, depth, lead, -, part, hpart, hin⟩ := hs s hmem
    exact (Shows.of_statement hpart hx).mono hin

/-- A header stands on a line of its own, and a condition on the first line of its conditional. -/
theorem exists_piece_of_mem_openings {o : Line} (ho : o ∈ s.openings lead) :
    .row (o ++ [' ', '{']) ∈ s.pieces lead ∨ ∃ c lead', .conditional c lead' ∈ s.pieces lead ∧
      o ++ [' ', '{'] = lead' ++ "if (".toList ++ exprText c.condition ++ [')', ' ', '{'] := by
  induction s generalizing lead with
  | conditional c =>
    obtain rfl := List.mem_singleton.1 ho
    exact .inr ⟨c, lead, List.mem_singleton_self _, by simp⟩
  | compound c =>
    obtain rfl := List.mem_singleton.1 ho
    exact .inl List.mem_cons_self
  | tryStatement t =>
    left
    rcases List.mem_cons.1 ho with rfl | ho
    · exact List.mem_cons_self
    · obtain ⟨c, hc, rfl⟩ := List.mem_map.1 ho
      have hrow : .row (['}', ' '] ++ c.header.toList ++ [' ', '{']) ∈ Piece.handlers t :=
        List.mem_append_left _ (List.mem_flatMap.2 ⟨c, hc, List.mem_cons_self⟩)
      exact List.mem_cons_of_mem _ (List.mem_cons_of_mem _ (List.mem_append_left _ hrow))
  | labeled label t span ih => exact ih ho
  | _ => cases ho

/-- A header or condition stands on a line of its statement, and the brace follows. -/
theorem openings_within {o : Line}
    (h : p.statement (p.block fuel) (p.conditional fuel) s depth lead = .ok page)
    (ho : o ∈ s.openings lead) : (p.row depth (o ++ [' ', '{'])).Within page := by
  rcases exists_piece_of_mem_openings ho with hq | ⟨c, lead', hq, hrow⟩
  · obtain ⟨part, hpart, hin⟩ := exists_piece_within h hq
    cases hpart
    exact hin
  · obtain ⟨part, hpart, hin⟩ := exists_piece_within h hq
    rw [hrow]
    exact (within_conditional hpart).trans hin

end Layout.Printer

open Layout

/-- The text of a body shows every block below its root. -/
theorem Layout.shows_of_renderBody {body : Body} {unit base text : String} {nested : List Edit}
    {id : BlockId} (h : renderBody body unit base nested = .ok text)
    (hr : body.Reaches Body.root id) : ∃ page, text = frame base page.lines ∧
      Printer.Shows ⟨body, base.toList, unit.toList, nested⟩ page id := by
  obtain ⟨page, hpage, rfl⟩ := exists_page_of_renderBody h
  exact ⟨page, rfl, (Printer.Shows.of_block hpage).reaches hr⟩

end BranchExclusion
