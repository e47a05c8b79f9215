import BranchExclusion.Proofs.Body.Filled
import BranchExclusion.Proofs.Layout.Growth

/-!
# The layout of a body with its branches filled in

A conditional whose true branch is a lone semicolon is laid out with empty braces, and so is one whose
true branch is an empty block.

* `Block.Filled.exists_rung`, `Block.Filled.exists_rung_before`: ladders stay as they are;
* `Together.eq`, `Page.Adds.eq_of_zero`: layouts to which nothing is added are the same;
* `mapM_congr`: a traversal of two lists that give the same, element by element;
* `Printer.SameBlock`, `Printer.SameConditional`: what is laid out alike when branches were filled in;
* `Printer.page_filled`: the pages of two such bodies;
* `Body.Filled.renderBody_eq`: filling in branches leaves the text of a body as it is.
-/

namespace BranchExclusion

namespace Block.Filled

variable {New : BlockId → Prop} {b b' : Block} (h : b.Filled New b')
include h

/-- A block that is a rung of a ladder stays one. -/
theorem exists_rung {c : Conditional} (hs : b.statements = [.conditional c]) :
    ∃ d, b'.statements = [.conditional d] ∧
      Statement.Filled New (.conditional c) (.conditional d) := by
  have hf := h.1
  rw [hs] at hf
  obtain ⟨t, rest, ht, hrest, hs'⟩ := List.forall₂_cons_left_iff.1 hf
  obtain ⟨d, rfl, -⟩ := ht.conditional_left
  rw [List.forall₂_nil_left_iff.1 hrest] at hs'
  exact ⟨d, hs', ht⟩

/-- A block that became a rung of a ladder was one. -/
theorem exists_rung_before {d : Conditional} (hs : b'.statements = [.conditional d]) :
    ∃ c, b.statements = [.conditional c] := by
  have hf := h.1
  rw [hs] at hf
  obtain ⟨s, rest, ht, hrest, hs'⟩ := List.forall₂_cons_right_iff.1 hf
  obtain ⟨c, rfl, -⟩ := ht.conditional_right
  rw [List.forall₂_nil_right_iff.1 hrest] at hs'
  exact ⟨c, hs'⟩

end Block.Filled

namespace Layout

theorem Together.eq {α ε : Type} {R : α → α → Prop} {x y : Except ε α} (h : Together R x y)
    (hR : ∀ a b, R a b → b = a) : y = x := by
  cases h with
  | error e => rfl
  | ok hab => rw [hR _ _ hab]

theorem Page.Adds.eq_of_zero {P : Line → Prop} {p q : Page} (h : p.Adds P 0 q) : q = p := by
  obtain ⟨hplaced, hlines⟩ := h
  cases p
  cases q
  rw [Page.mk.injEq]
  exact ⟨Layout.Adds.eq_of_zero hlines, hplaced⟩

theorem mapM_congr {α β ε : Type} {f g : α → Except ε β} {l r : List α}
    (h : List.Forall₂ (fun a b => g b = f a) l r) : r.mapM g = l.mapM f := by
  induction h with
  | nil => rfl
  | cons hab _ ih => rw [List.mapM_cons, List.mapM_cons, hab, ih]

/-- The layout of a statement is determined by those of the blocks it owns and of the conditional
that it may be. -/
theorem Printer.statement_congr {p : Printer} {after : Body} {t : Statement}
    {block block' : BlockId → ℕ → Except RenderError Page}
    {conditional conditional' : Conditional → ℕ → Line → Except RenderError Page}
    (hblock : ∀ id ∈ t.childBlocks, ∀ depth, block' id depth = block id depth)
    (hcond : ∀ c, t.unlabeled = .conditional c → ∀ depth lead,
      conditional' c depth lead = conditional c depth lead) (depth : ℕ) (lead : Line) :
    ({ p with body := after } : Printer).statement block' conditional' t depth lead =
      p.statement block conditional t depth lead := by
  have hsame : ∀ x : Except RenderError Page, Together (Page.Adds (fun _ => False) 0) x x :=
    .refl (.refl _)
  have hzero : ∀ ids : List BlockId, (ids.map fun _ => 0).sum = 0 := by simp
  have htogether : Together (Page.Adds (fun _ => False) (t.childBlocks.map fun _ => 0).sum)
      (p.statement block conditional t depth lead)
      (({ p with body := after } : Printer).statement block' conditional' t depth lead) := by
    refine p.statement_adds after t (fun id hid depth => ?_) (fun c hc depth lead => ?_) depth lead
    · rw [hblock id hid depth]
      exact hsame _
    · rw [hcond c hc depth lead, hzero]
      exact hsame _
  rw [hzero] at htogether
  exact htogether.eq fun _ _ => Page.Adds.eq_of_zero

namespace Printer

/-- With `extra` steps more, the block is laid out in `after` as it is in the body of `p`. -/
def SameBlock (p : Printer) (after : Body) (extra fuel : ℕ) (id : BlockId) : Prop :=
  ∀ depth, ({ p with body := after } : Printer).block (fuel + extra) id depth = p.block fuel id depth

/-- With `extra` steps more, the conditional is laid out in `after` as it is in the body of `p`, also
when it got its true branch. -/
def SameConditional (p : Printer) (after : Body) (extra fuel : ℕ) (c : Conditional) : Prop :=
  ∀ c', Statement.Filled (fun x => p.body.size ≤ x ∧ x < after.size) (.conditional c)
    (.conditional c') → ∀ depth lead,
      ({ p with body := after } : Printer).conditional (fuel + extra) c' depth lead =
        p.conditional fuel c depth lead

variable {p : Printer} {after : Body} {extra fuel : ℕ} {c c' : Conditional}
  (h : p.body.Filled after)
include h

/-- A branch that was filled in is empty, and a missing one is laid out as if it were. -/
theorem branch_filled (hextra : ∀ x, p.body.size ≤ x → x < after.size → 0 < extra)
    (hc : Statement.Filled (fun x => p.body.size ≤ x ∧ x < after.size) (.conditional c)
      (.conditional c'))
    (hblock : ∀ x ∈ (Statement.conditional c).childBlocks, p.SameBlock after extra fuel x)
    (depth : ℕ) : ({ p with body := after } : Printer).branch (fuel + extra) depth c'.thenBranch =
      p.branch fuel depth c.thenBranch := by
  cases hc with
  | same =>
    cases hthen : c.thenBranch with
    | none => rfl
    | some x => exact hblock x (by simp [hthen]) depth
  | branch _ x hnone hx =>
    obtain ⟨b, hb⟩ := Body.exists_block hx.2
    obtain rfl := h.new hx.1 hb
    obtain ⟨k, hk⟩ := Nat.exists_eq_add_of_le' (hextra x hx.1 hx.2)
    rw [hnone, hk, ← Nat.add_assoc]
    show Printer.block _ (fuel + k + 1) x depth = .ok .empty
    rw [Printer.block, hb]
    rfl

/-- An alternative keeps its shape: a rung of the ladder, or a block of its own. -/
theorem alternative_filled (tree : p.body.TreeShaped) (hc : p.body.Holds c)
    (hblock : ∀ x ∈ (Statement.conditional c).childBlocks, p.SameBlock after extra fuel x)
    (hrung : ∀ x b rung, c.elseBranch = some x → p.body.block x = .ok b →
      b.statements = [.conditional rung] → p.SameConditional after extra fuel rung)
    (depth : ℕ) (top : Page) :
    ({ p with body := after } : Printer).alternative (fuel + extra) depth top c.elseBranch =
      p.alternative fuel depth top c.elseBranch := by
  cases halt : c.elseBranch with
  | none => rfl
  | some x =>
    have hx : x ∈ (Statement.conditional c).childBlocks := by simp [halt]
    obtain ⟨b, hb⟩ := (tree.nests_root.of_reaches (hc.reaches hx)).exists_block
    obtain ⟨b', hb', hf⟩ := h.old hb
    by_cases hladder : ∃ rung, b.statements = [.conditional rung]
    · obtain ⟨rung, hs⟩ := hladder
      obtain ⟨rung', hs', hfilled⟩ := hf.exists_rung hs
      rw [alternative_rung hb' hs', alternative_rung hb hs, hrung x b rung halt hb hs rung' hfilled]
    · rw [alternative_block hb' fun rung hs => hladder (hf.exists_rung_before hs),
        alternative_block hb fun rung hs => hladder ⟨rung, hs⟩, hblock x hx]
      rfl

/-- **The same page.** Each new block adds two steps to those that a layout may take, and a new block
itself takes one. -/
theorem page_filled (tree : p.body.TreeShaped) :
    ({ p with body := after } : Printer).page = p.page := by
  set extra := 2 * (after.size - p.body.size) with hextra
  have hpos : ∀ x, p.body.size ≤ x → x < after.size → 0 < extra := fun x hle hlt => by omega
  have hsteps : 2 * after.maxDepth = 2 * p.body.maxDepth + extra := by
    have hle := h.size_le
    unfold Body.maxDepth
    omega
  rw [page, hsteps]
  refine tree.descent (B := p.SameBlock after extra) (C := p.SameConditional after extra) ?_ ?_ 1
  · intro fuel id b hr hb hblock hcond depth
    obtain ⟨b', hb', hf, -⟩ := h.old hb
    have hpages : b'.statements.mapM (fun t => ({ p with body := after } : Printer).statement
          (({ p with body := after } : Printer).block (fuel + extra))
          (({ p with body := after } : Printer).conditional (fuel + extra)) t depth []) =
        b.statements.mapM fun t => p.statement (p.block fuel) (p.conditional fuel) t depth [] := by
      refine mapM_congr (forall₂_imp_mem hf fun t ht t' _ hft => ?_)
      cases hft with
      | same =>
        exact statement_congr (fun x hx => hblock x (List.mem_flatMap.2 ⟨t, ht, hx⟩))
          (fun c hc => hcond t ht c hc c (.same _)) depth []
      | branch c x hnone hx => exact hcond _ ht c rfl _ (.branch c x hnone hx) depth []
    rw [Nat.add_right_comm, Printer.block, Printer.block, hb, hb']
    simp only [Except.mapError, ok_bind, hpages]
  · intro fuel c hc hblock hrung c' hf depth lead
    have hsame : c'.condition = c.condition ∧ c'.elseBranch = c.elseBranch := by
      cases hf <;> exact ⟨rfl, rfl⟩
    rw [Nat.add_right_comm, conditional_succ, conditional_succ, hsame.1, hsame.2,
      branch_filled h hpos hf hblock]
    exact congrArg _ (funext fun q => alternative_filled h tree hc hblock hrung depth _)

end Printer

end Layout

open Layout

/-- **Filling in branches leaves the text of a body as it is**, whatever its indentation and the
bodies nested in it. -/
theorem Body.Filled.renderBody_eq {body after : Body} (h : body.Filled after)
    (tree : body.TreeShaped) (unit base : String) (nested : List Edit) :
    renderBody after unit base nested = renderBody body unit base nested := by
  have hpage : Printer.page ⟨after, base.toList, unit.toList, nested⟩ =
      Printer.page ⟨body, base.toList, unit.toList, nested⟩ :=
    Printer.page_filled (p := ⟨body, base.toList, unit.toList, nested⟩) h tree
  rw [renderBody, renderBody, hpage]

end BranchExclusion
