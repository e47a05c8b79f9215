import BranchExclusion.Proofs.Layout.Balance
import BranchExclusion.Proofs.Layout.Hosts

/-!
# Pairs of braces

* `Body.elseIfs`: the alternatives that are laid out as `else if`;
* `Body.opens`: the braces that a statement opens, one for each block that it owns, unless that is a
  rung, and one for a true branch that is not there;
* `Printer.count_lay`: the opening braces in the lines of a part;
* `Body.TreeShaped.load_opensAt`: over a whole body, as many as there are blocks with braces of their
  own and conditionals without true branch.
-/

namespace BranchExclusion

open Layout

/-- The statement is a conditional without true branch, maybe behind labels. -/
def Statement.lacksBranch (t : Statement) : Bool :=
  (t.unlabeled.conditional?.map fun c => c.thenBranch.isNone).getD false

/-- The alternative of the statement, where it is a rung of a ladder. -/
def Statement.elseIf (body : Body) (t : Statement) : List BlockId :=
  (t.unlabeled.conditional?.bind Conditional.elseBranch).toList.filter fun x =>
    (body.rung? x).isSome

namespace Body

variable {body : Body} {id x : BlockId} {b : Block} {t : Statement}

/-- The alternatives that are laid out as `else if`: those that hold a conditional and nothing else. -/
def elseIfs (body : Body) : List BlockId :=
  (List.range body.size).flatMap fun id => (body.statementsAt id).flatMap (Statement.elseIf body)

/-- The braces that the statement opens. -/
def opens (body : Body) (t : Statement) : ℕ :=
  t.childBlocks.countP (· ∉ body.elseIfs) + if t.lacksBranch then 1 else 0

/-- The braces that the statements of a block open. -/
def opensAt (body : Body) (id : BlockId) : ℕ := ((body.statementsAt id).map body.opens).sum

theorem mem_elseIf : x ∈ t.elseIf body ↔ ∃ c, t.unlabeled = .conditional c ∧ c.elseBranch = some x ∧
    (body.rung? x).isSome := by
  have hconditional {s : Statement} {c : Conditional} :
      s.conditional? = some c ↔ s = .conditional c := by
    cases s <;> simp [Statement.conditional?]
  rw [Statement.elseIf, List.mem_filter, Option.mem_toList, Option.bind_eq_some_iff]
  simp only [hconditional]
  constructor
  · rintro ⟨⟨c, hc, hx⟩, hrung⟩
    exact ⟨c, hc, hx, hrung⟩
  · rintro ⟨c, hc, hx, hrung⟩
    exact ⟨⟨c, hc, hx⟩, hrung⟩

theorem mem_childBlocks_of_mem_elseIf (h : x ∈ t.elseIf body) : x ∈ t.childBlocks := by
  obtain ⟨c, hc, hx, -⟩ := mem_elseIf.1 h
  rw [← t.childBlocks_unlabeled, hc]
  simp [hx]

theorem mem_elseIfs : x ∈ body.elseIfs ↔ ∃ id b t, body.block id = .ok b ∧ t ∈ b.statements ∧
    x ∈ t.elseIf body := by
  simp only [elseIfs, List.mem_flatMap, List.mem_range]
  constructor
  · rintro ⟨id, hid, t, ht, hx⟩
    obtain ⟨b, hb⟩ := exists_block hid
    rw [statementsAt_eq hb] at ht
    exact ⟨id, b, t, hb, ht, hx⟩
  · rintro ⟨id, b, t, hb, ht, hx⟩
    rw [← statementsAt_eq hb] at ht
    exact ⟨id, lt_size_of_block_eq_ok hb, t, ht, hx⟩

theorem TreeShaped.root_not_mem_elseIfs (tree : body.TreeShaped) : root ∉ body.elseIfs := by
  intro h
  obtain ⟨id, b, t, hb, ht, hx⟩ := mem_elseIfs.1 h
  exact tree.not_isChild_root ⟨b, hb, List.mem_flatMap.2 ⟨t, ht, mem_childBlocks_of_mem_elseIf hx⟩⟩

/-- Whether a block is a rung shows in the statement that owns it. -/
theorem TreeShaped.mem_elseIfs_iff (tree : body.TreeShaped) (hb : body.block id = .ok b)
    (ht : t ∈ b.statements) (hx : x ∈ t.childBlocks) : x ∈ body.elseIfs ↔ x ∈ t.elseIf body := by
  refine ⟨fun h => ?_, fun h => mem_elseIfs.2 ⟨id, b, t, hb, ht, h⟩⟩
  obtain ⟨id', b', t', hb', ht', hx'⟩ := mem_elseIfs.1 h
  have hmem {id b t} (hb : body.block id = .ok b) (ht : t ∈ b.statements)
      (hx : x ∈ t.childBlocks) : body.IsChild id x := ⟨b, hb, List.mem_flatMap.2 ⟨t, ht, hx⟩⟩
  have hchild := mem_childBlocks_of_mem_elseIf hx'
  obtain rfl := tree.owner_unique (hmem hb' ht' hchild) (hmem hb ht hx)
  obtain rfl := block_unique hb hb'
  rwa [tree.statement_unique hb ht ht' hx hchild]

/-- A statement that is no conditional opens a brace for each block that it owns. -/
theorem opens_eq_length (h : ∀ x ∈ t.childBlocks, x ∈ body.elseIfs ↔ x ∈ t.elseIf body)
    (ht : t.unlabeled.conditional? = none) : body.opens t = t.childBlocks.length := by
  have hlacks : t.lacksBranch = false := by
    rw [Statement.lacksBranch, ht]
    rfl
  have hnone : t.elseIf body = [] := by
    rw [Statement.elseIf, ht]
    rfl
  rw [opens, hlacks, List.countP_eq_length.2]
  · rfl
  · intro x hx
    simp [h x hx, hnone]

/-- A conditional opens a brace for its true branch, if it is there or not, and one for an alternative
that is no rung. -/
theorem opens_conditional {c : Conditional}
    (h : ∀ x ∈ (Statement.conditional c).childBlocks,
      x ∈ body.elseIfs ↔ x ∈ (Statement.conditional c).elseIf body)
    (hnodup : (Statement.conditional c).childBlocks.Nodup) : body.opens (.conditional c) =
      1 + (c.elseBranch.toList.filter fun x => !(body.rung? x).isSome).length := by
  rw [Statement.childBlocks_conditional] at h hnodup
  have helse : ∀ x, c.elseBranch = some x → (x ∈ body.elseIfs ↔ (body.rung? x).isSome) := by
    intro x hx
    rw [h x (by simp [hx]), mem_elseIf]
    constructor
    · rintro ⟨d, hd, -, hrung⟩
      exact hrung
    · exact fun hrung => ⟨c, rfl, hx, hrung⟩
  -- the true branch is not the alternative as well
  have hthen : ∀ x, c.thenBranch = some x → x ∉ body.elseIfs := by
    intro x hx hmem
    rw [h x (by simp [hx]), mem_elseIf] at hmem
    obtain ⟨d, hd, hx', -⟩ := hmem
    cases hd
    simp [hx, hx'] at hnodup
  have hlacks : (Statement.conditional c).lacksBranch = c.thenBranch.isNone := rfl
  have hcount : c.elseBranch.toList.countP (fun x => decide (x ∉ body.elseIfs)) =
      (c.elseBranch.toList.filter fun x => !(body.rung? x).isSome).length := by
    rw [← List.countP_eq_length_filter]
    refine List.countP_congr fun x hx => ?_
    simp [helse x (Option.mem_toList.1 hx)]
  rw [opens, Statement.childBlocks_conditional, List.countP_append, hcount, hlacks]
  cases hb : c.thenBranch with
  | none => simp [Nat.add_comm]
  | some x => simp [hthen x hb]

end Body

namespace Layout.Printer

variable {p : Printer} {depth fuel : ℕ} {lead : Line} {page : Page}

/-- The braces that the statements of a block and those below it open. -/
def opened (p : Printer) : BlockId → ℕ := p.body.load p.body.opensAt

/-- The opening braces of a part. -/
def weight (p : Printer) : Part → ℕ
  | .row l => l.count '{'
  | .block id _ => p.opened id
  | .statement t _ lead =>
    lead.count '{' + (p.body.opens t + (t.childBlocks.map p.opened).sum)

theorem weight_block (id : BlockId) : p.weight (.block id depth) = p.opened id := rfl

theorem weight_statement (t : Statement) : p.weight (.statement t depth lead) =
    lead.count '{' + (p.body.opens t + (t.childBlocks.map p.opened).sum) := rfl

theorem weight_of_no_blocks {t : Statement} (hblocks : t.childBlocks = [])
    (ht : t.unlabeled.conditional? = none) : p.weight (.statement t depth lead) = lead.count '{' := by
  rw [weight_statement, Body.opens_eq_length (by simp [hblocks]) ht, hblocks]
  rfl

section Weight

variable (plain : p.Plain)
include plain

theorem weight_rowPart (text : Line) : p.weight (p.rowPart depth text) = text.count '{' := by
  rw [rowPart, weight, List.count_append, (plain.indent depth).count_eq, Nat.zero_add]

theorem weight_close : p.weight (p.rowPart depth ['}']) = 0 := by
  rw [weight_rowPart plain]
  decide

/-- A row that ends with an opening brace, with nothing but its lead that may hold another. -/
theorem weight_opening {header : Line} (hheader : Text.Braceless header) :
    p.weight (p.rowPart depth (lead ++ header ++ [' ', '{'])) = lead.count '{' + 1 := by
  rw [weight_rowPart plain, List.count_append, List.count_append, hheader.count_eq]
  rfl

theorem sum_weight_row {text : Line} (htext : Text.Braceless text) :
    ([p.rowPart depth (lead ++ text)].map p.weight).sum = lead.count '{' := by
  rw [List.map_singleton, List.sum_singleton, weight_rowPart plain, List.count_append, htext.count_eq,
    Nat.add_zero]

theorem sum_weight_reindent {text : List Char} (htext : Text.Braceless text) (columns : ℕ) :
    (((reindent (p.indent depth) lead columns text).map Part.row).map p.weight).sum =
      lead.count '{' := by
  have hi := plain.indent depth
  have hlines : ∀ l ∈ Text.lines text, Text.Braceless l :=
    fun l hl => htext.subset (subset_of_mem_linesFrom hl)
  unfold reindent
  split
  · simp [weight, hi.count_eq]
  · next first rest h =>
    rw [h] at hlines
    have hfirst : Text.Braceless (Text.trimEnd first) :=
      (hlines first List.mem_cons_self).subset (Text.trimEnd_prefix first).subset
    have hrest : (((rest.map (continuation (p.indent depth) columns)).map Part.row).map
        p.weight).sum = 0 := by
      refine List.sum_eq_zero fun w hw => ?_
      rw [List.map_map, List.map_map] at hw
      obtain ⟨l, hl, rfl⟩ := List.mem_map.1 hw
      exact (braceless_continuation hi (hlines l (List.mem_cons_of_mem first hl)) columns).count_eq
    rw [List.map_cons, List.map_cons, List.sum_cons, hrest, weight, List.count_append,
      List.count_append, hi.count_eq, hfirst.count_eq, Nat.zero_add, Nat.add_zero]

/-- What follows the true branch: a rung opens its own braces, another block one more. -/
theorem sum_weight_alternative {c : Conditional}
    (hload : ∀ x rung, x ∈ (Statement.conditional c).childBlocks → p.body.rung? x = some rung →
      p.opened x = p.weight (.statement (.conditional rung) depth [])) :
    ((p.alternativeParts depth c.elseBranch).map p.weight).sum =
      (c.elseBranch.toList.filter fun x => !(p.body.rung? x).isSome).length +
        (c.elseBranch.toList.map p.opened).sum := by
  have helse : p.weight (p.rowPart depth (['}'] ++ " else ".toList ++ ['{'])) = 1 := by
    rw [weight_rowPart plain]
    decide
  cases h : c.elseBranch with
  | none => simp only [alternativeParts, List.map_cons, List.map_nil, weight_close plain]; rfl
  | some x =>
    rw [alternativeParts]
    cases hrung : p.body.rung? x with
    | none =>
      simp only [List.map_cons, List.map_nil, List.sum_cons, List.sum_nil, helse,
        weight_close plain, weight_block, Option.toList_some]
      simp [hrung]
    | some rung =>
      have hx := hload x rung (by simp [h]) hrung
      simp [hx, weight_statement, hrung]

theorem sum_weight_handlers (depth : ℕ) {t : TryStatement}
    (hwords : Braceless (t.catches.map CatchClause.header)) :
    ((p.handlerParts depth t).map p.weight).sum =
      (t.catches.length + t.finallyBlock.toList.length) +
        ((t.catches.map CatchClause.body ++ t.finallyBlock.toList).map p.opened).sum := by
  have hfinal : p.weight (p.rowPart depth (['}'] ++ " finally ".toList ++ ['{'])) = 1 := by
    rw [weight_rowPart plain]
    decide
  have hcatches : ((t.catches.flatMap fun c => [p.rowPart depth (['}', ' '] ++ c.header.toList ++
      [' ', '{']), .block c.body (depth + 1)]).map p.weight).sum =
        t.catches.length + ((t.catches.map CatchClause.body).map p.opened).sum := by
    generalize t.catches = catches at hwords
    induction catches with
    | nil => rfl
    | cons c catches ih =>
      have hheader : Text.Braceless c.header.toList := hwords _ (by simp)
      have hrow : p.weight (p.rowPart depth (['}', ' '] ++ c.header.toList ++ [' ', '{'])) = 1 :=
        weight_opening plain hheader
      simp only [List.flatMap_cons, List.map_append, List.map_cons, List.map_nil, List.sum_append,
        List.sum_cons, List.sum_nil, hrow, weight_block, List.length_cons,
        ih fun w hw => hwords w (List.mem_cons_of_mem _ hw)]
      omega
  rw [handlerParts, List.map_append, List.sum_append, hcatches, List.map_append, List.sum_append]
  cases t.finallyBlock with
  | none => simp
  | some x =>
    simp only [Option.toList_some, List.flatMap_cons, List.flatMap_nil, List.append_nil,
      List.map_cons, List.map_nil, List.sum_cons, List.sum_nil, hfinal, weight_block,
      List.length_singleton]
    omega

/-- The braces of a conditional are those of its parts. -/
theorem sum_weight_conditional {c : Conditional} (hwords : Braceless (Statement.conditional c).words)
    (helseIf : ∀ x ∈ (Statement.conditional c).childBlocks,
      x ∈ p.body.elseIfs ↔ x ∈ (Statement.conditional c).elseIf p.body)
    (hnodup : (Statement.conditional c).childBlocks.Nodup)
    (hload : ∀ x rung, x ∈ (Statement.conditional c).childBlocks → p.body.rung? x = some rung →
      p.opened x = p.weight (.statement (.conditional rung) depth [])) :
    ((p.statementParts depth (.conditional c) lead).map p.weight).sum =
      p.weight (.statement (.conditional c) depth lead) := by
  have hrow : p.weight (p.rowPart depth (lead ++ "if (".toList ++ exprText c.condition ++
      [')', ' ', '{'])) = lead.count '{' + 1 := by
    rw [weight_rowPart plain, List.count_append, List.count_append, List.count_append,
      (braceless_exprText hwords).count_eq]
    rfl
  have hthen : ((c.thenBranch.toList.map fun id => Part.block id (depth + 1)).map p.weight) =
      c.thenBranch.toList.map p.opened := by
    rw [List.map_map]
    rfl
  rw [statementParts, List.cons_append, List.map_cons, List.sum_cons, hrow, List.map_append,
    List.sum_append, hthen, sum_weight_alternative plain hload, weight_statement,
    Body.opens_conditional helseIf hnodup, Statement.childBlocks_conditional, List.map_append,
    List.sum_append]
  omega

/-- The line that ends a statement around one block opens nothing. -/
theorem weight_closing {c : Compound} (hwords : Braceless (Statement.compound c).words) :
    p.weight (p.rowPart depth (closing c.trailer)) = 0 := by
  cases h : c.trailer with
  | none => exact weight_close plain
  | some trailer =>
    have hmem : trailer ∈ (Statement.compound c).words := by simp [Statement.words, h]
    rw [weight_rowPart plain, closing, List.count_append, (hwords trailer hmem).count_eq]
    decide

/-- A declaration opens nothing. -/
theorem sum_weight_declaration {type name : String} {value : Option Expr}
    (hwords : Braceless (Statement.declaration type name value).words) :
    ((p.statementParts depth (.declaration type name value) lead).map p.weight).sum =
      lead.count '{' := by
  have htype := hwords type List.mem_cons_self
  have hname := hwords name (List.mem_cons_of_mem type List.mem_cons_self)
  have hrow {assigned : Line} (hassigned : Text.Braceless assigned) : ([p.rowPart depth
      (lead ++ type.toList ++ [' '] ++ name.toList ++ assigned ++ [';'])].map p.weight).sum =
        lead.count '{' := by
    simp only [List.append_assoc]
    exact sum_weight_row plain (htype.append (.append (by decide)
      (hname.append (hassigned.append (by decide)))))
  cases value with
  | none => exact hrow (fun c hc => absurd hc List.not_mem_nil)
  | some value =>
    have hvalue := braceless_exprText fun w hw =>
      hwords w (List.mem_cons_of_mem type (List.mem_cons_of_mem name hw))
    exact hrow (Text.Braceless.append (by decide) hvalue)

/-- The braces of a statement are those of its parts. -/
theorem sum_weight_statement {t : Statement} (hwords : Braceless t.words)
    (helseIf : ∀ x ∈ t.childBlocks, x ∈ p.body.elseIfs ↔ x ∈ t.elseIf p.body)
    (hnodup : t.childBlocks.Nodup)
    (hload : ∀ x rung, x ∈ t.childBlocks → p.body.rung? x = some rung →
      p.opened x = p.weight (.statement (.conditional rung) depth [])) :
    ((p.statementParts depth t lead).map p.weight).sum = p.weight (.statement t depth lead) := by
  have hclose : p.weight (p.rowPart depth ['}']) = 0 := weight_close plain
  induction t generalizing lead with
  | conditional c => exact sum_weight_conditional plain hwords helseIf hnodup hload
  | block id =>
    have hrow : p.weight (p.rowPart depth (lead ++ ['{'])) = lead.count '{' + 1 := by
      rw [weight_rowPart plain, List.count_append]
      rfl
    rw [weight_statement, Body.opens_eq_length helseIf rfl]
    simp only [statementParts, List.map_cons, List.map_nil, List.sum_cons, List.sum_nil, hrow,
      hclose, weight_block, Statement.childBlocks_block, List.length_singleton]
    omega
  | compound c =>
    have hheader := hwords c.header List.mem_cons_self
    rw [weight_statement, Body.opens_eq_length helseIf rfl]
    simp only [statementParts, List.map_cons, List.map_nil, List.sum_cons, List.sum_nil,
      weight_opening plain hheader, weight_closing plain hwords, weight_block,
      Statement.childBlocks_compound, List.length_singleton]
    omega
  | tryStatement t =>
    have hheader := hwords t.header List.mem_cons_self
    have hhandlers := sum_weight_handlers plain depth
      fun w hw => hwords w (List.mem_cons_of_mem t.header hw)
    rw [weight_statement, Body.opens_eq_length helseIf rfl]
    simp only [statementParts, List.map_cons, List.map_nil, List.map_append, List.sum_append,
      List.sum_cons, List.sum_nil, weight_opening plain hheader, hclose, hhandlers, weight_block,
      Statement.childBlocks_tryStatement, TryStatement.blocks, List.length_cons, List.length_append,
      List.length_map]
    omega
  | labeled label t span ih =>
    have hlabel := hwords label List.mem_cons_self
    have hlead : (lead ++ label.toList ++ [':', ' ']).count '{' = lead.count '{' := by
      rw [List.count_append, List.count_append, hlabel.count_eq]
      rfl
    rw [statementParts, ih (fun w hw => hwords w (List.mem_cons_of_mem label hw)) helseIf hnodup
      hload, weight_statement, weight_statement, hlead]
    rfl
  | exit kind v =>
    rw [weight_of_no_blocks rfl rfl]
    exact sum_weight_reindent plain (hwords v.text (List.mem_singleton_self _)) _
  | other v =>
    rw [weight_of_no_blocks rfl rfl]
    exact sum_weight_reindent plain (hwords v.text (List.mem_singleton_self _)) _
  | comment text span =>
    rw [weight_of_no_blocks rfl rfl]
    exact sum_weight_reindent plain (hwords text (List.mem_singleton_self _)) _
  | declaration type name value =>
    rw [weight_of_no_blocks rfl rfl]
    exact sum_weight_declaration plain hwords
  | assignment target value =>
    have htarget := hwords target List.mem_cons_self
    have hvalue := braceless_exprText fun w hw => hwords w (List.mem_cons_of_mem target hw)
    rw [weight_of_no_blocks rfl rfl, statementParts]
    simp only [List.append_assoc]
    exact sum_weight_row plain (htarget.append (.append (by decide) (hvalue.append (by decide))))
  | assertion condition =>
    rw [weight_of_no_blocks rfl rfl, statementParts]
    simp only [List.append_assoc]
    exact sum_weight_row plain (.append (by decide) ((braceless_exprText hwords).append (by decide)))

/-- **The braces of a part are those of its parts.** -/
theorem sum_weight_parts (tree : p.body.TreeShaped) {part : Part} (hrow : ∀ l, part ≠ .row l)
    (hmeets : p.Meets part) : ((p.parts part).map p.weight).sum = p.weight part := by
  cases part with
  | row l => exact absurd rfl (hrow l)
  | block id depth =>
    obtain ⟨b, hb⟩ := (tree.nests_root.of_reaches hmeets).exists_block
    have hparts : ((p.parts (.block id depth)).map p.weight) = b.statements.map fun t =>
        p.body.opens t + (t.childBlocks.map p.opened).sum := by
      rw [parts, Body.statementsAt_eq hb, List.map_map]
      exact List.map_congr_left fun t _ => Nat.zero_add _
    rw [hparts, List.sum_map_add, Body.sum_childBlocks, weight_block, opened,
      Body.load_eq tree hmeets hb, Body.opensAt, Body.statementsAt_eq hb]
  | statement t depth lead =>
    obtain ⟨id, b, hr, hb, ht⟩ := hmeets
    refine sum_weight_statement plain (plain.body id b hr hb t ht)
      (fun x hx => tree.mem_elseIfs_iff hb ht hx)
      ((List.nodup_flatMap.1 (tree.nodup_childBlocks hb)).1 t ht) fun x rung hx hrung => ?_
    have hreaches : p.body.Reaches Body.root x := .child hr ⟨b, hb, List.mem_flatMap.2 ⟨t, ht, hx⟩⟩
    obtain ⟨b', hb'⟩ := (tree.nests_root.of_reaches hreaches).exists_block
    have hs := (Body.rung?_eq_some hb').1 hrung
    rw [opened, Body.load_eq tree hreaches hb', Body.opensAt, Body.statementsAt_eq hb',
      Block.childBlocks, hs]
    simp [weight_statement, opened]

/-- The lines of a part hold its opening braces. -/
theorem count_lay (hnested : p.nested = []) (tree : p.body.TreeShaped) {part : Part}
    (h : p.lay fuel part = .ok page) (hmeets : p.Meets part) :
    (unlines page.lines).count '{' = p.weight part := by
  refine lay_induction hnested (Q := fun part lines => p.Meets part →
    (unlines lines).count '{' = p.weight part) ?_ ?_ h hmeets
  · intro l _
    have hunlines : unlines [l] = l ++ ['\n'] := by simp [unlines]
    rw [hunlines, List.count_append]
    rfl
  · intro part lines hrow hlines hmeets
    rw [← sum_weight_parts plain tree hrow hmeets]
    have hall : List.Forall₂ (fun q ls => (unlines ls).count '{' = p.weight q) (p.parts part)
        lines := forall₂_imp_mem hlines fun q hq ls _ hls => hls (hmeets.parts hq)
    clear hlines
    generalize p.parts part = qs at hall
    induction hall with
    | nil => rfl
    | cons hq _ ih =>
      rw [List.flatten_cons, unlines_append, List.count_append, hq, ih, List.map_cons, List.sum_cons]

end Weight

end Layout.Printer

/-! ### A whole body -/

namespace Body

variable {body : Body} {ids : List BlockId}

/-- The blocks that the statements of a block own. -/
def ownedBy (body : Body) (id : BlockId) : List BlockId :=
  (body.statementsAt id).flatMap Statement.childBlocks

theorem mem_ownedBy {p x : BlockId} : x ∈ body.ownedBy p ↔ body.IsChild p x := by
  cases hb : body.block p with
  | error e =>
    simp [ownedBy, statementsAt, IsChild, hb, Except.toOption]
  | ok b =>
    rw [ownedBy, statementsAt_eq hb, isChild_iff hb]
    rfl

/-- The blocks below the root are the root and those that they own. -/
theorem TreeShaped.perm_reachable (tree : body.TreeShaped) (hids : body.reachable = .ok ids) :
    ids.Perm (root :: ids.flatMap body.ownedBy) := by
  have hmem : ∀ {x}, x ∈ ids ↔ body.Reaches root x := mem_below hids
  have hnodup : (ids.flatMap body.ownedBy).Nodup := by
    refine List.nodup_flatMap.2 ⟨fun id hid => ?_, ?_⟩
    · obtain ⟨b, hb⟩ := (tree.nests_root.of_reaches (hmem.1 hid)).exists_block
      rw [ownedBy, statementsAt_eq hb]
      exact tree.nodup_childBlocks hb
    · refine (tree.nodup_below .self hids).imp fun {p q} hpq x hp hq => hpq ?_
      exact tree.owner_unique (mem_ownedBy.1 hp) (mem_ownedBy.1 hq)
  have hroot : root ∉ ids.flatMap body.ownedBy := by
    intro h
    obtain ⟨p, -, hp⟩ := List.mem_flatMap.1 h
    exact tree.not_isChild_root (mem_ownedBy.1 hp)
  refine (List.perm_ext_iff_of_nodup (tree.nodup_below .self hids)
    (List.nodup_cons.2 ⟨hroot, hnodup⟩)).2 fun x => ?_
  rw [hmem, List.mem_cons, List.mem_flatMap]
  constructor
  · intro hr
    cases hr with
    | self => exact .inl rfl
    | child hp hc => exact .inr ⟨_, hmem.2 hp, mem_ownedBy.2 hc⟩
  · rintro (rfl | ⟨p, hp, hx⟩)
    · exact .self
    · exact .child (hmem.1 hp) (mem_ownedBy.1 hx)

/-- **The braces that the statements of a body open**: one for each block below the root, unless it is
laid out as `else if`, and one for each conditional without true branch. -/
theorem TreeShaped.load_opensAt (tree : body.TreeShaped) (hids : body.reachable = .ok ids) :
    body.load body.opensAt root =
      ids.countP (fun id => decide (id ≠ root ∧ id ∉ body.elseIfs)) +
        (ids.flatMap body.statementsAt).countP Statement.lacksBranch := by
  have howned : ids.countP (fun id => decide (id ≠ root ∧ id ∉ body.elseIfs)) =
      (ids.flatMap body.ownedBy).countP fun id => decide (id ∉ body.elseIfs) := by
    rw [(tree.perm_reachable hids).countP_eq, List.countP_cons_of_neg (by simp)]
    refine List.countP_congr fun x hx => ?_
    obtain ⟨p, -, hp⟩ := List.mem_flatMap.1 hx
    have hne : x ≠ root := by
      rintro rfl
      exact tree.not_isChild_root (mem_ownedBy.1 hp)
    simp [hne]
  have hopens (id : BlockId) : body.opensAt id =
      (body.ownedBy id).countP (fun id => decide (id ∉ body.elseIfs)) +
        (body.statementsAt id).countP Statement.lacksBranch := by
    rw [opensAt, ownedBy, List.countP_flatMap, countP_eq_sum (body.statementsAt id),
      ← List.sum_map_add]
    rfl
  rw [load_of_below hids (Nat.le_refl _), howned, List.countP_flatMap, List.countP_flatMap,
    ← List.sum_map_add]
  exact congrArg List.sum (List.map_congr_left fun id _ => hopens id)

end Body

end BranchExclusion
