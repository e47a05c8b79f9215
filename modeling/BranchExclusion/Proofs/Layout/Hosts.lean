import BranchExclusion.Proofs.Layout.Folding
import BranchExclusion.Proofs.Layout.Reflow
import BranchExclusion.Proofs.Method.Rendering

/-!
# Where nested bodies are placed

The layout finds the places of nested bodies while it goes through the statements, and only counts
how many it has placed. When no two statements share a byte, the count tells whether each body has
its place.

* `Body.reachableVerbatims`: the source text of all statements below the root;
* `Body.hosts`: those of them that a nested body falls in;
* `Body.LacksCondition`: a loop that cannot be laid out;
* `Printer.Settles`: a layout that ends, with a result or at such a loop;
* `Printer.settles_page`: the layout of a body, with the number of bodies that were placed;
* `renderBody_places_nested`: each nested body is placed once, or is reported.
-/

namespace BranchExclusion

open Layout

namespace Body

/-- The source text that the statements of a block keep. -/
def verbatimsAt (body : Body) (id : BlockId) : List Verbatim :=
  ((body.block id).toOption.map Block.verbatims).getD []

/-- The source text that the statements below the root keep, block by block. -/
def reachableVerbatims (body : Body) : List Verbatim :=
  (body.reachable.toOption.getD []).flatMap body.verbatimsAt

/-- The source text that a nested body falls in. -/
def hosts (body : Body) (e : Edit) : List Verbatim :=
  body.reachableVerbatims.filter fun v => v.range.contains e.range

/-- A `do` loop without the condition that follows its body stands below the root, maybe behind
labels. -/
def LacksCondition (body : Body) (c : Compound) : Prop :=
  ∃ id b t, body.Reaches root id ∧ body.block id = .ok b ∧ t ∈ b.statements ∧
    t.unlabeled = .compound c ∧ c.kind = .doWhile ∧ c.trailer = none

variable {body : Body} {id : BlockId} {b : Block}

theorem verbatimsAt_eq (hb : body.block id = .ok b) : body.verbatimsAt id = b.verbatims := by
  rw [verbatimsAt, hb]
  rfl

theorem mem_reachableVerbatims (tree : body.TreeShaped) {v : Verbatim} :
    v ∈ body.reachableVerbatims ↔ ∃ id b t, body.Reaches root id ∧ body.block id = .ok b ∧
      t ∈ b.statements ∧ v ∈ t.verbatims := by
  obtain ⟨ids, hids⟩ := tree.nests_root.exists_below
  rw [reachableVerbatims, reachable, hids]
  show v ∈ ids.flatMap body.verbatimsAt ↔ _
  rw [List.mem_flatMap]
  constructor
  · rintro ⟨id, hid, hv⟩
    have hr := (mem_below hids).1 hid
    obtain ⟨b, hb⟩ := (tree.nests_root.of_reaches hr).exists_block
    rw [verbatimsAt_eq hb] at hv
    obtain ⟨t, ht, hv⟩ := List.mem_flatMap.1 hv
    exact ⟨id, b, t, hr, hb, ht, hv⟩
  · rintro ⟨id, b, t, hr, hb, ht, hv⟩
    refine ⟨id, (mem_below hids).2 hr, ?_⟩
    rw [verbatimsAt_eq hb]
    exact List.mem_flatMap.2 ⟨t, ht, hv⟩

/-- What is summed up over the blocks below the root is summed up over their source text. -/
theorem load_root_verbatims (tree : body.TreeShaped) (f : Verbatim → ℕ) :
    body.load (fun id => ((body.verbatimsAt id).map f).sum) root =
      (body.reachableVerbatims.map f).sum := by
  obtain ⟨ids, hids⟩ := tree.nests_root.exists_below
  rw [load_of_below hids (Nat.le_refl _), reachableVerbatims, sum_map_flatMap, reachable, hids]
  rfl

end Body

/-! ### Layouts that end -/

namespace Layout.Printer

variable {α β : Type} {body : Body} {P : α → Prop} {Q : β → Prop}

/-- The layout has a result with the property `P`, or it stops at a loop of the body that lacks its
condition. -/
inductive Settles (body : Body) (P : α → Prop) : Except RenderError α → Prop
  | ok {a : α} : P a → Settles body P (.ok a)
  | lacks {c : Compound} : body.LacksCondition c →
      Settles body P (.error (.noCondition c.header c.span.startLine))

theorem Settles.bind {x : Except RenderError α} {f : α → Except RenderError β}
    (h : Settles body P x) (hf : ∀ a, P a → Settles body Q (f a)) : Settles body Q (x >>= f) := by
  cases h with
  | ok ha => exact hf _ ha
  | lacks hc => exact .lacks hc

/-- Pages one after the other, with the bodies placed in all of them. -/
theorem Settles.concat {l : List α} {f : α → Except RenderError Page} {w : α → ℕ}
    (h : ∀ x ∈ l, Settles body (fun q => q.placed = w x) (f x)) :
    Settles body (fun pages => (Printer.concat pages).placed = (l.map w).sum) (l.mapM f) := by
  induction l with
  | nil => exact .ok rfl
  | cons x l ih =>
    rw [List.mapM_cons]
    refine (h x List.mem_cons_self).bind fun q hq => ?_
    refine (ih fun y hy => h y (List.mem_cons_of_mem x hy)).bind fun pages hpages => .ok ?_
    rw [concat_cons, Page.placed_append, hq, hpages, List.map_cons, List.sum_cons]

variable {p : Printer} {block : BlockId → ℕ → Except RenderError Page}
  {conditional : Conditional → ℕ → Line → Except RenderError Page} {w : BlockId → ℕ}

@[simp] theorem placed_row (depth : ℕ) (text : Line) : (p.row depth text).placed = 0 := rfl

theorem settles_verbatim {v : Verbatim}
    (h : ∃ out, splice v.text.toList (p.inside v.range) = .ok out) (depth : ℕ) (lead : Line) :
    Settles body (fun q => q.placed = (p.inside v.range).length) (p.verbatim v depth lead) := by
  obtain ⟨out, hout⟩ := h
  rw [verbatim, hout]
  exact .ok rfl

/-- The bodies in the text of a statement are placed, and those in the blocks that it owns. -/
theorem settles_statement (t : Statement)
    (hblock : ∀ id ∈ t.childBlocks, ∀ depth, Settles body (fun q => q.placed = w id) (block id depth))
    (hcond : ∀ c, t.unlabeled = .conditional c → ∀ depth lead, Settles body
      (fun q => q.placed = ((Statement.conditional c).childBlocks.map w).sum)
      (conditional c depth lead))
    (hloop : ∀ c, t.unlabeled = .compound c → c.kind = .doWhile → c.trailer = none →
      body.LacksCondition c)
    (hsplice : ∀ v ∈ t.verbatims, ∃ out, splice v.text.toList (p.inside v.range) = .ok out)
    (depth : ℕ) (lead : Line) :
    Settles body (fun q => q.placed = (t.verbatims.map fun v => (p.inside v.range).length).sum +
      (t.childBlocks.map w).sum) (p.statement block conditional t depth lead) := by
  rw [statement_eq_flow, ← Statement.sum_weigh_pieces _ w t lead]
  refine (Settles.concat fun q hq => ?_).bind fun pages hpages => .ok hpages
  have hof := Statement.of_mem_pieces hq
  cases q with
  | row text => exact .ok rfl
  | verbatim v lead => exact settles_verbatim (hsplice v hof) depth lead
  | comment text span lead => exact .ok rfl
  | block id => exact hblock id hof (depth + 1)
  | conditional c lead => exact hcond c hof depth lead
  | lacking c => exact .lacks (hloop c hof.1 hof.2.1 hof.2.2)

/-- What the text of one block takes of the nested bodies. -/
def taken (p : Printer) (id : BlockId) : ℕ :=
  ((p.body.verbatimsAt id).map fun v => (p.inside v.range).length).sum

/-- With `fuel` steps, the bodies that fall in the block and the blocks below it are placed. -/
def BlockSettles (p : Printer) (fuel : ℕ) (id : BlockId) : Prop :=
  ∀ depth, Settles p.body (fun q => q.placed = p.body.load p.taken id) (p.block fuel id depth)

/-- The same of a conditional. -/
def ConditionalSettles (p : Printer) (fuel : ℕ) (c : Conditional) : Prop :=
  ∀ depth lead, Settles p.body
    (fun q => q.placed = ((Statement.conditional c).childBlocks.map (p.body.load p.taken)).sum)
    (p.conditional fuel c depth lead)

section Page

variable (tree : p.body.TreeShaped)
  (hsplice : ∀ v ∈ p.body.reachableVerbatims,
    ∃ out, splice v.text.toList (p.inside v.range) = .ok out)
include tree

/-- The lines `top` and the alternative below them, when the blocks of the conditional and the rung
that the alternative may be are settled. -/
theorem settles_alternative {fuel : ℕ} {c : Conditional} (hc : p.body.Holds c)
    (hblock : ∀ x ∈ (Statement.conditional c).childBlocks, p.BlockSettles fuel x)
    (hrung : ∀ x b rung, c.elseBranch = some x → p.body.block x = .ok b →
      b.statements = [.conditional rung] → p.ConditionalSettles fuel rung)
    (top : Page) (depth : ℕ) : Settles p.body
      (fun q => q.placed = top.placed + (c.elseBranch.toList.map (p.body.load p.taken)).sum)
      (p.alternative fuel depth top c.elseBranch) := by
  cases halt : c.elseBranch with
  | none => exact .ok (by simp)
  | some x =>
    have hx : x ∈ (Statement.conditional c).childBlocks := by simp [halt]
    obtain ⟨b, hb⟩ := (tree.nests_root.of_reaches (hc.reaches hx)).exists_block
    by_cases hladder : ∃ rung, b.statements = [.conditional rung]
    · obtain ⟨rung, hs⟩ := hladder
      -- the block of a rung is not laid out itself, and it holds no text of its own
      have htaken : p.taken x = 0 := by
        rw [taken, Body.verbatimsAt_eq hb, Block.verbatims, hs]
        rfl
      rw [alternative_rung hb hs]
      refine (hrung x b rung halt hb hs depth _).bind fun r hr => .ok ?_
      rw [Page.placed_append, hr, Option.toList_some, List.map_singleton, List.sum_singleton,
        Body.load_eq tree (hc.reaches hx) hb, htaken, Nat.zero_add, Block.childBlocks, hs,
        List.flatMap_singleton]
    · rw [alternative_block hb fun rung hs => hladder ⟨rung, hs⟩]
      exact (hblock x hx (depth + 1)).bind fun r hr => .ok (by simp [hr])

include hsplice

/-- **The layout of a body.** Each text is laid out once, so as many bodies are placed as the texts
hold, each with its own. -/
theorem settles_page : Settles p.body
    (fun q => q.placed = (p.body.reachableVerbatims.map fun v => (p.inside v.range).length).sum)
    p.page := by
  rw [← Body.load_root_verbatims tree]
  refine tree.descent (B := p.BlockSettles) (C := p.ConditionalSettles) ?_ ?_ 1
  · intro fuel id b hr hb hblock hcond depth
    -- what the block holds itself and what lies below it, statement by statement
    have hown : p.taken id =
        (b.statements.map fun t => (t.verbatims.map fun v => (p.inside v.range).length).sum).sum := by
      rw [taken, Body.verbatimsAt_eq hb, Block.verbatims, Body.sum_map_flatMap]
    rw [Printer.block, hb, Body.load_eq tree hr hb, hown, ← Body.sum_childBlocks,
      ← List.sum_map_add]
    refine (Settles.concat fun t ht => ?_).bind fun pages hpages => .ok hpages
    exact settles_statement t (fun x hx => hblock x (List.mem_flatMap.2 ⟨t, ht, hx⟩))
      (hcond t ht) (fun c hc hkind htrailer => ⟨id, b, t, hr, hb, ht, hc, hkind, htrailer⟩)
      (fun v hv => hsplice v ((Body.mem_reachableVerbatims tree).2 ⟨id, b, t, hr, hb, ht, hv⟩))
      depth []
  · intro fuel c hc hblock hrung depth lead
    rw [conditional_succ]
    have hbranch : Settles p.body
        (fun q => q.placed = (c.thenBranch.toList.map (p.body.load p.taken)).sum)
        (p.branch fuel (depth + 1) c.thenBranch) := by
      cases hthen : c.thenBranch with
      | none => exact .ok rfl
      | some x => simpa [branch] using hblock x (by simp [hthen]) (depth + 1)
    refine hbranch.bind fun q hq => ?_
    have halternative := settles_alternative tree hc hblock hrung (p.row depth
      (lead ++ "if (".toList ++ exprText c.condition ++ [')', ' ', '{']) ++ q) depth
    rwa [Page.placed_append, placed_row, hq, Nat.zero_add, ← List.sum_append, ← List.map_append]
      at halternative

end Page

/-- A loop that is laid out has its condition. -/
theorem trailer_ne_none {fuel depth : ℕ} {lead : Line} {t : Statement} {c : Compound} {page : Page}
    (h : p.statement (p.block fuel) (p.conditional fuel) t depth lead = .ok page)
    (hc : t.unlabeled = .compound c) (hkind : c.kind = .doWhile) : c.trailer ≠ none := by
  intro htrailer
  obtain ⟨_, hlaid, -⟩ := exists_piece_within h (Statement.lacking_mem_pieces hc hkind htrailer lead)
  cases hlaid

theorem not_lacksCondition {page : Page} (h : p.page = .ok page) (c : Compound) :
    ¬ p.body.LacksCondition c := by
  rintro ⟨id, b, t, hr, hb, ht, hc, hkind, htrailer⟩
  obtain ⟨b', hb', hlays⟩ := (Shows.of_block h).reaches hr
  obtain rfl := Body.block_unique hb hb'
  obtain ⟨fuel, depth, lead, -, part, hpart, -⟩ := hlays t ht
  exact trailer_ne_none hpart hc hkind htrailer

end Layout.Printer

/-! ### Nested bodies and their hosts -/

theorem countP_eq_sum {α : Type} (l : List α) (r : α → Bool) :
    l.countP r = (l.map fun a => if r a = true then 1 else 0).sum := by
  induction l with
  | nil => rfl
  | cons a l ih => rw [List.countP_cons, ih, List.map_cons, List.sum_cons, Nat.add_comm]

/-- Pairs counted row by row and column by column. -/
theorem sum_countP_comm {α β : Type} (l : List α) (m : List β) (r : α → β → Bool) :
    (l.map fun a => m.countP (r a)).sum = (m.map fun b => l.countP fun a => r a b).sum := by
  induction l with
  | nil => simp
  | cons a l ih =>
    simp only [List.map_cons, List.sum_cons, ih, List.countP_cons, List.sum_map_add]
    rw [countP_eq_sum, Nat.add_comm]

/-- Lists with at most one element: those that have one, and the empty ones. -/
theorem sum_length_add_countP_isEmpty {α β : Type} {l : List α} {f : α → List β}
    (h : ∀ a ∈ l, (f a).length ≤ 1) :
    (l.map fun a => (f a).length).sum + l.countP (fun a => (f a).isEmpty) = l.length := by
  induction l with
  | nil => rfl
  | cons a l ih =>
    have hrest := ih fun b hb => h b (List.mem_cons_of_mem a hb)
    have ha := h a List.mem_cons_self
    rw [List.map_cons, List.sum_cons, List.countP_cons, List.length_cons]
    rcases Nat.le_one_iff_eq_zero_or_eq_one.1 ha with hzero | hone
    · rw [List.length_eq_zero_iff.1 hzero, List.length_nil, List.isEmpty_nil, if_pos rfl]
      omega
    · obtain ⟨b, hb⟩ := List.length_eq_one_iff.1 hone
      rw [hb, List.length_singleton, List.isEmpty_cons, if_neg Bool.false_ne_true]
      omega

/-- The nested bodies can be placed where they fall in source text: stretches that are not empty and
share no byte, and that cut no character of it. Of the source text, no two share a byte. -/
structure Body.Admits (body : Body) (nested : List Edit) : Prop where
  apart : (body.reachableVerbatims.filter fun v => !v.range.isEmpty).Pairwise
    fun v w => v.range.Disjoint w.range
  nonempty : ∀ e ∈ nested, e.range.start < e.range.stop
  disjoint : nested.Pairwise fun e f => e.range.Disjoint f.range
  cuts : ∀ v ∈ body.reachableVerbatims, ∀ e ∈ nested, v.range.contains e.range = true →
    Text.isBoundary v.text.toList (e.range.start - v.range.start) = true ∧
      Text.isBoundary v.text.toList (e.range.stop - v.range.start) = true

namespace Body.Admits

variable {body : Body} {nested : List Edit} {e : Edit} {v : Verbatim} (h : body.Admits nested)
include h

/-- A nested body falls in one text at most. -/
theorem length_hosts_le (he : e ∈ nested) : (body.hosts e).length ≤ 1 := by
  have hne := h.nonempty e he
  have hapart : (body.hosts e).Pairwise fun v w => v.range.Disjoint w.range := by
    have hfull : body.hosts e = (body.reachableVerbatims.filter fun v => !v.range.isEmpty).filter
        fun v => v.range.contains e.range := by
      rw [List.filter_filter, hosts]
      refine List.filter_congr fun v _ => ?_
      cases hin : v.range.contains e.range with
      | false => rfl
      | true => rw [ByteRange.isEmpty_eq_false_of_contains hne hin]; rfl
    rw [hfull]
    exact h.apart.filter _
  have hin : ∀ v ∈ body.hosts e, v.range.start ≤ e.range.start ∧ e.range.stop ≤ v.range.stop :=
    fun v hv => ByteRange.contains_iff.1 (List.mem_filter.1 hv).2
  cases hhosts : body.hosts e with
  | nil => exact Nat.zero_le 1
  | cons v rest =>
    cases rest with
    | nil => exact Nat.le_refl 1
    | cons w rest =>
      -- the two would share the bytes of the nested body
      rw [hhosts] at hapart hin
      have hvw := (List.pairwise_cons.1 hapart).1 w List.mem_cons_self
      have hv := hin v List.mem_cons_self
      have hw := hin w (List.mem_cons_of_mem v List.mem_cons_self)
      rcases hvw with hvw | hvw <;> omega

theorem hosts_eq_singleton (he : e ∈ nested) (hv : v ∈ body.hosts e) : body.hosts e = [v] := by
  obtain ⟨w, hw⟩ := List.length_eq_one_iff.1
    (Nat.le_antisymm (h.length_hosts_le he) (List.length_pos_of_mem hv))
  rw [hw, List.mem_singleton] at hv
  rw [hw, hv]

/-- **As many bodies are placed as have a host.** -/
theorem placed_add_lost (base unit : Line) :
    (body.reachableVerbatims.map fun v =>
        (Printer.inside ⟨body, base, unit, nested⟩ v.range).length).sum +
      nested.countP (fun e => (body.hosts e).isEmpty) = nested.length := by
  have hcount : ∀ v : Verbatim, (Printer.inside ⟨body, base, unit, nested⟩ v.range).length =
      nested.countP fun e => v.range.contains e.range := fun v =>
    Printer.length_inside (p := ⟨body, base, unit, nested⟩) h.nonempty v.range
  simp only [hcount]
  -- from the texts, with the bodies in each, to the bodies, with the texts around each
  rw [sum_countP_comm _ nested fun (v : Verbatim) e => v.range.contains e.range]
  simp only [List.countP_eq_length_filter (p := fun v : Verbatim => v.range.contains _)]
  exact sum_length_add_countP_isEmpty fun e he => h.length_hosts_le he

/-- The nested bodies that fall in a text can be exchanged in it. -/
theorem exists_splice (base unit : Line) (hv : v ∈ body.reachableVerbatims) :
    ∃ out, splice v.text.toList (Printer.inside ⟨body, base, unit, nested⟩ v.range) = .ok out := by
  refine ⟨_, splice_eq_patch (fun e he => ?_) ?_⟩
  · obtain ⟨-, f, hf, hin, rfl⟩ := Printer.mem_inside.1 he
    obtain ⟨hstart, hstop⟩ := h.cuts v hv f hf hin
    have hlt : f.range.start - v.range.start < f.range.stop - v.range.start := by
      have hlo := (ByteRange.contains_iff.1 hin).1
      have hne := h.nonempty f hf
      omega
    exact ⟨hlt, Text.le_byteLength_of_isBoundary hstop, hstart, hstop⟩
  · unfold Printer.inside
    split
    · exact .nil
    · refine List.pairwise_map.2 ((h.disjoint.filter _).imp_of_mem fun {e f} he hf hef => ?_)
      have hin := ByteRange.contains_iff.1 (List.mem_filter.1 he).2
      have hin' := ByteRange.contains_iff.1 (List.mem_filter.1 hf).2
      show e.range.stop - v.range.start ≤ f.range.start - v.range.start ∨
        f.range.stop - v.range.start ≤ e.range.start - v.range.start
      rcases hef with hef | hef <;> omega

end Body.Admits

/-! ### The text of a body -/

section Text

variable {body : Body} {nested : List Edit} {unit base text : String} {e : Edit} {v : Verbatim}

/-- The texts of a body stand in its own, each with the nested bodies that fall in it exchanged. -/
theorem exists_lines_of_renderBody (tree : body.TreeShaped)
    (h : renderBody body unit base nested = .ok text) (hv : v ∈ body.reachableVerbatims) :
    ∃ out, splice v.text.toList
        (Printer.inside ⟨body, base.toList, unit.toList, nested⟩ v.range) = .ok out ∧
      ∃ depth lead above below, text = frame base (above ++
        reindent (indentation base.toList unit.toList depth) lead v.span.startCol out ++ below) := by
  obtain ⟨id, b, t, hr, hb, ht, hv⟩ := (Body.mem_reachableVerbatims tree).1 hv
  obtain ⟨page, rfl, b', hb', hlays⟩ := shows_of_renderBody h hr
  obtain rfl := Body.block_unique hb hb'
  obtain ⟨fuel, depth, lead, -, part, hpart, above, below, hlines⟩ := hlays t ht
  obtain ⟨out, lead, hout, hpart⟩ := Printer.exists_reindent_verbatim hpart hv
  rw [hpart] at hlines
  exact ⟨out, hout, depth, lead, above, below, by rw [← hlines]; rfl⟩

/-- The layout stops at a loop, or all texts are laid out and the count decides. -/
theorem renderBody_cases (tree : body.TreeShaped) (h : body.Admits nested) (unit base : String) :
    (∃ c, body.LacksCondition c ∧
        renderBody body unit base nested = .error (.noCondition c.header c.span.startLine)) ∨
      (∀ c, ¬ body.LacksCondition c) ∧ ∃ lines, renderBody body unit base nested =
        if nested.countP (fun e => (body.hosts e).isEmpty) = 0 then .ok (frame base lines)
        else .error (.outside (nested.countP fun e => (body.hosts e).isEmpty) nested.length) := by
  have hsettles := Printer.settles_page (p := ⟨body, base.toList, unit.toList, nested⟩) tree
    fun v hv => h.exists_splice base.toList unit.toList hv
  have hcount := h.placed_add_lost base.toList unit.toList
  generalize hpage : Printer.page ⟨body, base.toList, unit.toList, nested⟩ = result at hsettles
  cases hsettles with
  | @lacks c hc => exact .inl ⟨c, hc, by rw [renderBody, hpage]; rfl⟩
  | @ok page hplaced =>
    refine .inr ⟨Printer.not_lacksCondition hpage, page.lines, ?_⟩
    rw [renderBody, hpage, ok_bind]
    rw [← hplaced] at hcount
    have hlost : nested.length - page.placed = nested.countP fun e => (body.hosts e).isEmpty := by
      omega
    by_cases hall : nested.countP (fun e => (body.hosts e).isEmpty) = 0
    · rw [if_pos hall, if_neg (by omega), if_neg (by omega)]
      rfl
    · rw [if_neg hall, if_pos (by omega), hlost]
      rfl

theorem countP_isEmpty_hosts : nested.countP (fun e => (body.hosts e).isEmpty) = 0 ↔
    ∀ e ∈ nested, ∃ v ∈ body.reachableVerbatims, v.range.contains e.range = true := by
  simp [Body.hosts, List.countP_eq_zero]

theorem exists_renderBody_iff (tree : body.TreeShaped) (h : body.Admits nested) :
    (∃ text, renderBody body unit base nested = .ok text) ↔ (∀ c, ¬ body.LacksCondition c) ∧
      ∀ e ∈ nested, ∃ v ∈ body.reachableVerbatims, v.range.contains e.range = true := by
  rw [← countP_isEmpty_hosts]
  rcases renderBody_cases tree h unit base with ⟨c, hc, hloop⟩ | ⟨hnone, lines, hresult⟩
  · refine iff_of_false ?_ fun hall => hall.1 c hc
    rintro ⟨text, htext⟩
    rw [hloop] at htext
    cases htext
  · by_cases hall : nested.countP (fun e => (body.hosts e).isEmpty) = 0
    · rw [hresult, if_pos hall]
      exact iff_of_true ⟨_, rfl⟩ ⟨hnone, hall⟩
    · rw [hresult, if_neg hall]
      refine iff_of_false ?_ fun h => hall h.2
      rintro ⟨text, htext⟩
      cases htext

/-- **Nested bodies are placed once or reported.** The layout of a body fails at a `do` loop without
its condition or, when there is none, because nested bodies fall in no text, and then it tells how
many. Otherwise each nested body is exchanged in one text, whose lines stand in the text of the body,
and falls in no other. -/
theorem renderBody_places_nested (tree : body.TreeShaped) (h : body.Admits nested)
    (unit base : String) :
    ((∃ text, renderBody body unit base nested = .ok text) ↔ (∀ c, ¬ body.LacksCondition c) ∧
      ∀ e ∈ nested, ∃ v ∈ body.reachableVerbatims, v.range.contains e.range = true) ∧
    (∀ error, renderBody body unit base nested = .error error →
      (∃ c, body.LacksCondition c ∧ error = .noCondition c.header c.span.startLine) ∨
      (∀ c, ¬ body.LacksCondition c) ∧
        error = .outside (nested.countP fun e => (body.hosts e).isEmpty) nested.length) ∧
    ∀ text, renderBody body unit base nested = .ok text → ∀ e ∈ nested, ∃ v out,
      body.hosts e = [v] ∧
      e.relativeTo v.range.start ∈
        Printer.inside ⟨body, base.toList, unit.toList, nested⟩ v.range ∧
      splice v.text.toList
        (Printer.inside ⟨body, base.toList, unit.toList, nested⟩ v.range) = .ok out ∧
      e.text.toList <:+: out ∧
      ∃ depth lead above below, text = frame base (above ++
        reindent (indentation base.toList unit.toList depth) lead v.span.startCol out ++ below) := by
  refine ⟨exists_renderBody_iff tree h, ?_, ?_⟩
  · intro error herror
    rcases renderBody_cases tree h unit base with ⟨c, hc, hloop⟩ | ⟨hnone, lines, hresult⟩
    · rw [hloop] at herror
      cases herror
      exact .inl ⟨c, hc, rfl⟩
    · rw [hresult] at herror
      split at herror
      · cases herror
      · cases herror
        exact .inr ⟨hnone, rfl⟩
  · intro text htext e he
    obtain ⟨v, hv, hin⟩ := ((exists_renderBody_iff tree h).1 ⟨text, htext⟩).2 e he
    obtain ⟨out, hout, hlines⟩ := exists_lines_of_renderBody tree htext hv
    have hmem : e.relativeTo v.range.start ∈
        Printer.inside ⟨body, base.toList, unit.toList, nested⟩ v.range :=
      Printer.mem_inside_of_contains he (h.nonempty e he) hin
    have hinfix : e.text.toList <:+: out :=
      (splice_keeps hout).1 (e.relativeTo v.range.start) hmem
    exact ⟨v, out, h.hosts_eq_singleton he (List.mem_filter.2 ⟨hv, hin⟩), hmem, hout, hinfix, hlines⟩

end Text

/-- A loop behind a label, with a ladder in it whose branches hold source text. -/
def hostBody : Body :=
  ⟨#[⟨[.labeled "scan" (.compound ⟨.doWhile, "do", 1, some "while (b);", Span.zero⟩) Span.zero,
        .other ⟨"x();", ByteRange.zero, Span.zero⟩], Span.zero, true, false, false⟩,
    ⟨[.conditional ⟨3, .source "a", some 2, some 3, Span.zero⟩], Span.zero, true, false, false⟩,
    ⟨[.exit .returns ⟨"return () -> \x7b\x7d;", ⟨10, 26⟩, Span.zero⟩], Span.zero, true, false, false⟩,
    ⟨[.conditional ⟨5, .source "c", some 4, none, Span.zero⟩], Span.zero, true, false, false⟩,
    ⟨[.labeled "l" (.other ⟨"é = f(() -> \x7b\x7d, 1);", ⟨40, 60⟩, Span.zero⟩) Span.zero], Span.zero,
      true, false, false⟩]⟩

/-- One body in each of the two texts. -/
def hostedEdits : List Edit := [⟨⟨53, 55⟩, "\x7b é \x7d"⟩, ⟨⟨23, 25⟩, "\x7b\x7d"⟩]

theorem treeShaped_hostBody : hostBody.TreeShaped :=
  ⟨by decide, by decide, by decide, by decide⟩

theorem not_lacksCondition_hostBody (c : Compound) : ¬ hostBody.LacksCondition c := by
  rintro ⟨id, b, t, -, hb, ht, hc, hkind, htrailer⟩
  have hmem : b ∈ hostBody.blocks.toList :=
    Array.mem_toList_iff.2 (Array.mem_of_getElem? (Body.block_eq_ok.1 hb))
  simp only [hostBody, List.mem_cons, List.not_mem_nil, or_false] at hmem
  rcases hmem with rfl | rfl | rfl | rfl | rfl <;>
    simp only [List.mem_cons, List.not_mem_nil, or_false] at ht
  · rcases ht with rfl | rfl
    · cases hc
      cases htrailer
    · cases hc
  all_goals
    subst ht
    cases hc

/-- Both bodies are placed, and a third one that falls between the texts is reported. -/
theorem renderBody_places_nested_two :
    (∃ text, renderBody hostBody "  " "" hostedEdits = .ok text) ∧
      renderBody hostBody "  " "" (⟨⟨26, 40⟩, ""⟩ :: hostedEdits) = .error (.outside 1 3) := by
  have hadmits : hostBody.Admits hostedEdits := ⟨by decide, by decide, by decide, by decide⟩
  have hadmits' : hostBody.Admits (⟨⟨26, 40⟩, ""⟩ :: hostedEdits) :=
    ⟨by decide, by decide, by decide, by decide⟩
  have hpair := renderBody_places_nested treeShaped_hostBody hadmits "  " ""
  have htriple := renderBody_places_nested treeShaped_hostBody hadmits' "  " ""
  refine ⟨hpair.1.2 ⟨not_lacksCondition_hostBody, by decide⟩, ?_⟩
  cases hresult : renderBody hostBody "  " "" (⟨⟨26, 40⟩, ""⟩ :: hostedEdits) with
  | ok text => exact absurd (htriple.1.1 ⟨text, hresult⟩).2 (by decide)
  | error error =>
    rcases htriple.2.1 error hresult with ⟨c, hc, -⟩ | ⟨-, heq⟩
    · exact (not_lacksCondition_hostBody c hc).elim
    · rw [heq]
      decide

end BranchExclusion
