import BranchExclusion.Proofs.Layout.Pairs

/-!
# The nesting of blocks in a layout

* `Body.NestsAt`: the depth of a block, where the rungs of a ladder lie no deeper than its top;
* `Printer.Writes`: the layout comes to a part, behind some lines;
* `Writes.exists_lay`, `Writes.fits`: what stands there, and the level of braces before it;
* `Body.NestsAt.exists_writes`, `Writes.nests`: the layout comes to every block with braces of its own,
  and to each block at its depth only;
* `renderBody_mirrors_tree`: the braces of a layout mirror the tree of its blocks.
-/

namespace BranchExclusion

open Layout
open Text (level Walk)

/-- The block is nested at this depth. An alternative that is laid out as `else if` stands at the depth
of the block that its conditional stands in. -/
inductive Body.NestsAt (body : Body) : BlockId → ℕ → Prop
  | root : NestsAt body Body.root 0
  | elseIf {p x : BlockId} {depth : ℕ} : NestsAt body p depth → body.IsChild p x →
      x ∈ body.elseIfs → NestsAt body x depth
  | block {p x : BlockId} {depth : ℕ} : NestsAt body p depth → body.IsChild p x →
      x ∉ body.elseIfs → NestsAt body x (depth + 1)

namespace Layout.Printer

variable {p : Printer} {k depth : ℕ} {lead : Line} {page : Page} {part q : Part}
  {front : List Line}

/-- The layout of the body comes to a part, behind the lines `front` and with `k` steps left. -/
inductive Writes (p : Printer) : ℕ → Part → List Line → Prop
  | root : Writes p (2 * p.body.maxDepth) (.block Body.root 1) []
  | part {k : ℕ} {part q : Part} {front : List Line} {above below : List Part}
      {pages : List Page} : Writes p (k + part.cost) part front →
      p.parts part = above ++ q :: below → p.Laid k above pages →
      Writes p k q (front ++ pages.flatMap Page.lines)

theorem Laid.unique {parts : List Part} {pages pages' : List Page} (h : p.Laid k parts pages)
    (h' : p.Laid k parts pages') : pages = pages' := by
  induction h generalizing pages' with
  | nil => exact (List.forall₂_nil_left_iff.1 h').symm
  | cons hq _ ih =>
    obtain ⟨page, rest, hpage, hrest, rfl⟩ := List.forall₂_cons_left_iff.1 h'
    rw [Except.ok.inj (hq.symm.trans hpage), ih hrest]

theorem ne_row_of_parts {above below : List Part} (h : p.parts part = above ++ q :: below)
    (l : Line) : part ≠ .row l := by
  rintro rfl
  cases above <;> cases h

/-- What the layout comes to is laid out there. -/
theorem Writes.exists_lay (hnested : p.nested = []) (hpage : p.page = .ok page)
    (h : p.Writes k part front) :
    ∃ own back, p.lay k part = .ok own ∧ page.lines = front ++ (own.lines ++ back) := by
  induction h with
  | root => exact ⟨page, [], hpage, by simp⟩
  | @part k part q front above below pages _ hparts habove ih =>
    obtain ⟨own, back, hown, hlines⟩ := ih
    obtain ⟨k', hk', all, hall, hownlines⟩ := lay_parts hnested (ne_row_of_parts hparts) hown
    obtain rfl : k' = k := by omega
    rw [hparts] at hall
    obtain ⟨pages', rest, habove', hrest, rfl⟩ := forall₂_append_left hall
    obtain rfl := Laid.unique habove' habove
    obtain ⟨r, below', hr, -, rfl⟩ := List.forall₂_cons_left_iff.1 hrest
    refine ⟨r, below'.flatMap Page.lines ++ back, hr, ?_⟩
    rw [hlines, hownlines, List.flatMap_append, List.flatMap_cons]
    simp only [List.append_assoc]

/-- The layout comes to every part of a part. -/
theorem Writes.mem (hnested : p.nested = []) (hpage : p.page = .ok page)
    (h : p.Writes k part front) (hq : q ∈ p.parts part) : ∃ k' front', p.Writes k' q front' := by
  obtain ⟨above, below, hparts⟩ := List.append_of_mem hq
  obtain ⟨own, -, hown, -⟩ := h.exists_lay hnested hpage
  obtain ⟨k', rfl, all, hall, -⟩ := lay_parts hnested (ne_row_of_parts hparts) hown
  rw [hparts] at hall
  obtain ⟨pages, rest, hpages, -, rfl⟩ := forall₂_append_left hall
  exact ⟨k', _, .part h hparts hpages⟩

/-- Before what the layout comes to, the braces are at a level that fits it. -/
theorem Writes.fits (plain : p.Plain) (hnested : p.nested = []) (h : p.Writes k part front) :
    p.Meets part ∧ ∃ m, part.Fits 1 (1 + level (unlines front)) m := by
  induction h with
  | root => exact ⟨.self, 1, by norm_num, by simp [unlines], by norm_num⟩
  | @part k part q front above below pages _ hparts habove ih =>
    obtain ⟨hmeets, m, hfits⟩ := ih
    have hthreads := threads_parts plain (ne_row_of_parts hparts) hmeets hfits
    rw [hparts] at hthreads
    obtain ⟨n, hthreads, hrest⟩ := hthreads.exists_append
    have hmem : ∀ r ∈ above, p.Meets r := fun r hr =>
      hmeets.parts (hparts ▸ List.mem_append_left _ hr)
    have hwalk : Walk 1 (1 + level (unlines front)) n (unlines (pages.map Page.lines).flatten) := by
      refine walk_of_threads hthreads hfits.floor_le (List.forall₂_map_right_iff.2 ?_)
      exact forall₂_imp_mem habove fun r hr page _ hlay d n m hr' =>
        walk_lay plain hnested hlay (hmem r hr) hr'
    cases hrest with
    | @cons _ k' _ _ _ hq _ =>
      refine ⟨hmeets.parts (hparts ▸ List.mem_append_right _ List.mem_cons_self), k', ?_⟩
      rw [unlines_append, Text.level_append, ← add_assoc, List.flatMap_def, hwalk.final]
      exact hq

/-- The block is laid out within the statement that owns it, unless it is a rung. -/
theorem block_mem_statementParts {t : Statement} {x : BlockId} (hx : x ∈ t.childBlocks)
    (hne : x ∉ t.elseIf p.body) : .block x (depth + 1) ∈ p.statementParts depth t lead := by
  rw [statementParts_eq, List.mem_flatMap]
  rcases Statement.exists_piece hx lead with hq | ⟨c, lead', hc, hq⟩
  · exact ⟨_, hq, List.mem_singleton_self _⟩
  · refine ⟨_, hq, ?_⟩
    rw [← t.childBlocks_unlabeled, hc, Statement.childBlocks_conditional, List.mem_append,
      Option.mem_toList, Option.mem_toList] at hx
    rcases hx with hx | hx
    · simp [pieceParts, statementParts, Option.mem_def.1 hx]
    · cases hrung : p.body.rung? x with
      | some rung => exact absurd (Body.mem_elseIf.2 ⟨c, hc, hx, by simp [hrung]⟩) hne
      | none => simp [pieceParts, statementParts, Option.mem_def.1 hx, alternativeParts, hrung]

/-- The rung is laid out within the ladder above it. -/
theorem rung_mem_statementParts {t : Statement} {x : BlockId} {rung : Conditional}
    (hx : x ∈ t.elseIf p.body) (hrung : p.body.rung? x = some rung) :
    .statement (.conditional rung) depth (['}'] ++ " else ".toList) ∈
      p.statementParts depth t lead := by
  obtain ⟨c, hc, hx, -⟩ := Body.mem_elseIf.1 hx
  obtain ⟨lead', hparts⟩ := exists_statementParts_eq hc p depth lead
  rw [hparts]
  simp [statementParts, hx, alternativeParts, hrung]

/-- A block that is laid out within a statement is owned by it, and no rung. -/
theorem of_block_mem_statementParts {t : Statement} {x : BlockId} {d : ℕ}
    (hnodup : t.childBlocks.Nodup) (h : .block x d ∈ p.statementParts depth t lead) :
    x ∈ t.childBlocks ∧ x ∉ t.elseIf p.body ∧ d = depth + 1 := by
  obtain ⟨hx, rfl⟩ : x ∈ t.childBlocks ∧ d = depth + 1 := by
    rcases mem_statementParts h with ⟨l, hl⟩ | ⟨x', hx, hblock⟩ | ⟨c, x', rung, -, -, -, hrung⟩
    · cases hl
    · cases hblock
      exact ⟨hx, rfl⟩
    · cases hrung
  refine ⟨hx, fun hmem => ?_, rfl⟩
  obtain ⟨c, hc, helse, hsome⟩ := Body.mem_elseIf.1 hmem
  obtain ⟨rung, hrung⟩ := Option.isSome_iff_exists.1 hsome
  obtain ⟨lead', hparts⟩ := exists_statementParts_eq hc p depth lead
  rw [← t.childBlocks_unlabeled, hc, Statement.childBlocks_conditional] at hnodup
  rw [hparts] at h
  -- the alternative is the rung, so the block could only be the true branch as well
  simp only [statementParts, helse, alternativeParts, hrung, List.cons_append, List.mem_cons,
    List.mem_append, List.mem_map, Option.mem_toList, List.not_mem_nil, or_false] at h
  rcases h with h | ⟨x', hx', hblock⟩ | h
  · cases h
  · cases hblock
    simp [helse, Option.mem_def.1 hx'] at hnodup
  · cases h

/-- A statement begins with a line. -/
theorem exists_row_statementParts (p : Printer) (depth : ℕ) (t : Statement) (lead : Line) :
    ∃ l rest, p.statementParts depth t lead = .row l :: rest := by
  have hreindent (lead : Line) (columns : ℕ) (text : List Char) : ∃ l rest,
      (reindent (p.indent depth) lead columns text).map Part.row = .row l :: rest := by
    unfold reindent
    split
    · exact ⟨_, _, rfl⟩
    · exact ⟨_, _, rfl⟩
  induction t generalizing lead with
  | labeled label t span ih => exact ih _
  | exit kind v => exact hreindent _ _ _
  | other v => exact hreindent _ _ _
  | comment text span => exact hreindent _ _ _
  | _ => exact ⟨_, _, rfl⟩

theorem lines_ne_nil (hnested : p.nested = []) {t : Statement}
    (h : p.lay k (.statement t depth lead) = .ok page) : page.lines ≠ [] := by
  obtain ⟨k', -, pages, hpages, hlines⟩ := yields_statement hnested h
  obtain ⟨l, rest, hrow⟩ := exists_row_statementParts p depth t lead
  rw [hrow] at hpages
  obtain ⟨first, pages, hfirst, -, rfl⟩ := List.forall₂_cons_left_iff.1 hpages
  cases hfirst
  rw [hlines]
  exact List.cons_ne_nil _ _

end Layout.Printer

namespace Body

variable {body : Body} {id : BlockId} {depth : ℕ}

/-- Every block below the root has a depth, and no other one. -/
theorem TreeShaped.existsUnique_nestsAt (tree : body.TreeShaped) (hr : body.Reaches root id) :
    ∃! depth, body.NestsAt id depth := by
  have hexists : ∃ depth, body.NestsAt id depth := by
    induction hr with
    | self => exact ⟨0, .root⟩
    | @child p x _ hc ih =>
      obtain ⟨depth, h⟩ := ih
      by_cases hx : x ∈ body.elseIfs
      · exact ⟨depth, .elseIf h hc hx⟩
      · exact ⟨depth + 1, .block h hc hx⟩
  obtain ⟨depth, h⟩ := hexists
  refine ⟨depth, h, fun depth' h' => ?_⟩
  clear hr
  induction h generalizing depth' with
  | root =>
    cases h' with
    | root => rfl
    | elseIf _ hc => exact absurd hc tree.not_isChild_root
    | block _ hc => exact absurd hc tree.not_isChild_root
  | elseIf _ hc hx ih =>
    cases h' with
    | root => exact absurd hc tree.not_isChild_root
    | elseIf h' hc' => exact ih _ (tree.owner_unique hc' hc ▸ h')
    | block _ _ hx' => exact absurd hx hx'
  | block _ hc hx ih =>
    cases h' with
    | root => exact absurd hc tree.not_isChild_root
    | elseIf _ _ hx' => exact absurd hx' hx
    | block h' hc' => exact congrArg (· + 1) (ih _ (tree.owner_unique hc' hc ▸ h'))

/-- **The layout comes to every statement at the depth of its block**, behind no lead where its block is
laid out with braces of its own. -/
theorem NestsAt.exists_writes (tree : body.TreeShaped) {p : Printer} {page : Page}
    (hbody : p.body = body) (hnested : p.nested = []) (hpage : p.page = .ok page)
    (h : body.NestsAt id depth) :
    (id ∉ body.elseIfs → ∃ k front, p.Writes k (.block id (depth + 1)) front) ∧
      ∀ b t, body.block id = .ok b → t ∈ b.statements →
        ∃ k front lead, p.Writes k (.statement t (depth + 1) lead) front := by
  subst hbody
  -- where the layout comes to a block, it comes to the statements of the block
  have hstatements {id : BlockId} {depth k : ℕ} {front : List Line}
      (h : p.Writes k (.block id (depth + 1)) front) : ∀ b t, p.body.block id = .ok b →
        t ∈ b.statements → ∃ k front lead, p.Writes k (.statement t (depth + 1) lead) front := by
    intro b t hb ht
    rw [← statementsAt_eq hb] at ht
    obtain ⟨k', front', hwrites⟩ := h.mem hnested hpage (List.mem_map_of_mem ht)
    exact ⟨k', front', [], hwrites⟩
  induction h with
  | root => exact ⟨fun _ => ⟨_, _, .root⟩, hstatements .root⟩
  | @elseIf q x depth _ hchild hx ih =>
    refine ⟨fun hne => absurd hx hne, fun b t hb ht => ?_⟩
    obtain ⟨c, hc, hxc⟩ := hchild
    obtain ⟨s, hs, hxs⟩ := List.mem_flatMap.1 hxc
    obtain ⟨k, front, lead, hwrites⟩ := ih.2 c s hc hs
    have hrung := (tree.mem_elseIfs_iff hc hs hxs).1 hx
    obtain ⟨-, -, -, hsome⟩ := mem_elseIf.1 hrung
    obtain ⟨rung, hr⟩ := Option.isSome_iff_exists.1 hsome
    obtain ⟨k', front', hwrites⟩ := hwrites.mem hnested hpage
      (Printer.rung_mem_statementParts hrung hr)
    rw [(rung?_eq_some hb).1 hr, List.mem_singleton] at ht
    exact ⟨k', front', _, ht ▸ hwrites⟩
  | @block q x depth _ hchild hx ih =>
    obtain ⟨c, hc, hxc⟩ := hchild
    obtain ⟨s, hs, hxs⟩ := List.mem_flatMap.1 hxc
    obtain ⟨k, front, lead, hwrites⟩ := ih.2 c s hc hs
    have hne : x ∉ s.elseIf p.body := fun h => hx ((tree.mem_elseIfs_iff hc hs hxs).2 h)
    obtain ⟨k', front', hwrites⟩ := hwrites.mem hnested hpage
      (Printer.block_mem_statementParts hxs hne)
    exact ⟨fun _ => ⟨k', front', hwrites⟩, hstatements hwrites⟩

end Body

namespace Layout.Printer

variable {p : Printer} {k depth : ℕ} {page : Page} {part q : Part} {front : List Line}

/-- The part is a block with braces of its own, or a statement of some block, at the depth of the
block. -/
def Nests (p : Printer) : Part → Prop
  | .row _ => True
  | .block id d => ∃ depth, d = depth + 1 ∧ p.body.NestsAt id depth ∧ id ∉ p.body.elseIfs
  | .statement t d _ => ∃ id b depth, d = depth + 1 ∧ p.body.NestsAt id depth ∧
      p.body.block id = .ok b ∧ t ∈ b.statements

theorem Nests.parts (tree : p.body.TreeShaped) (h : p.Nests part) (hq : q ∈ p.parts part) :
    p.Nests q := by
  cases part with
  | row l => cases hq
  | block id d =>
    obtain ⟨depth, rfl, hnests, -⟩ := h
    obtain ⟨t, ht, rfl⟩ := List.mem_map.1 hq
    obtain ⟨b, hb, ht⟩ := Body.mem_statementsAt.1 ht
    exact ⟨id, b, depth, rfl, hnests, hb, ht⟩
  | statement t d lead =>
    obtain ⟨id, b, depth, rfl, hnests, hb, ht⟩ := h
    have hchild : ∀ x ∈ t.childBlocks, p.body.IsChild id x := fun x hx =>
      ⟨b, hb, List.mem_flatMap.2 ⟨t, ht, hx⟩⟩
    cases q with
    | row l => trivial
    | block x d =>
      obtain ⟨hx, hne, rfl⟩ := of_block_mem_statementParts
        ((List.nodup_flatMap.1 (tree.nodup_childBlocks hb)).1 t ht) hq
      have hne' : x ∉ p.body.elseIfs := fun h => hne ((tree.mem_elseIfs_iff hb ht hx).1 h)
      exact ⟨depth + 1, rfl, .block hnests (hchild x hx) hne', hne'⟩
    | statement s d lead' =>
      rcases mem_statementParts hq with ⟨l, hl⟩ | ⟨x, -, hx⟩ | ⟨c, x, rung, hc, hx, hrung, hs⟩
      · cases hl
      · cases hx
      · cases hs
        have hmem : x ∈ t.elseIf p.body := Body.mem_elseIf.2 ⟨c, hc, hx, by simp [hrung]⟩
        have hx' := Body.mem_childBlocks_of_mem_elseIf hmem
        obtain ⟨b', hb', hs⟩ := Body.exists_block_of_rung? hrung
        exact ⟨x, b', depth, rfl, .elseIf hnests (hchild x hx')
          ((tree.mem_elseIfs_iff hb ht hx').2 hmem), hb', hs ▸ List.mem_singleton_self _⟩

/-- **The layout comes to a part at its depth only.** -/
theorem Writes.nests (tree : p.body.TreeShaped) (h : p.Writes k part front) : p.Nests part := by
  induction h with
  | root => exact ⟨0, rfl, .root, tree.root_not_mem_elseIfs⟩
  | part _ hparts _ ih =>
    exact ih.parts tree (hparts ▸ List.mem_append_right _ List.mem_cons_self)

/-- Where `front` and the statements `above` of a block are laid out, the lines of the statement `t`
follow in the text, and `depth` braces are open before them. -/
def Stands (p : Printer) (text : String) (k : ℕ) (front : List Line) (depth : ℕ)
    (above : List Statement) (t : Statement) : Prop :=
  ∃ k' pages part back, k = k' + 1 ∧
    p.Laid k' (above.map fun t => .statement t depth []) pages ∧
    p.lay k' (.statement t depth []) = .ok part ∧ part.lines ≠ [] ∧
    text = frame (String.ofList p.base) (front ++ pages.flatMap Page.lines ++ (part.lines ++ back)) ∧
    level (['{', '\n'] ++ unlines (front ++ pages.flatMap Page.lines)) = depth

/-- Where a statement of a block with braces of its own is laid out, and at which level. -/
theorem Writes.exists_statement {id : BlockId} {b : Block} {above below : List Statement}
    {t : Statement} (plain : p.Plain) (hnested : p.nested = []) (hpage : p.page = .ok page)
    (h : p.Writes k (.block id depth) front) (hb : p.body.block id = .ok b)
    (hsplit : b.statements = above ++ t :: below) :
    ∃ k' pages part back, k = k' + 1 ∧
      p.Laid k' (above.map fun t => .statement t depth []) pages ∧
      p.lay k' (.statement t depth []) = .ok part ∧ part.lines ≠ [] ∧
      page.lines = front ++ pages.flatMap Page.lines ++ (part.lines ++ back) ∧
      1 + level (unlines (front ++ pages.flatMap Page.lines)) = depth := by
  have hparts : p.parts (.block id depth) = (above.map fun t => .statement t depth []) ++
      .statement t depth [] :: below.map fun t => .statement t depth [] := by
    rw [Printer.parts, Body.statementsAt_eq hb, hsplit, List.map_append, List.map_cons]
  obtain ⟨own, -, hown, -⟩ := h.exists_lay hnested hpage
  obtain ⟨k, rfl, all, hall, -⟩ := lay_parts hnested (ne_row_of_parts hparts) hown
  rw [hparts] at hall
  obtain ⟨pages, rest, hpages, -, rfl⟩ := forall₂_append_left hall
  have hstatement : p.Writes k (.statement t depth []) (front ++ pages.flatMap Page.lines) :=
    .part h hparts hpages
  obtain ⟨part, back, hpart, hlines⟩ := hstatement.exists_lay hnested hpage
  obtain ⟨-, m, rfl, hlead⟩ := hstatement.fits plain hnested
  refine ⟨k, pages, part, back, rfl, hpages, hpart, lines_ne_nil hnested hpart, hlines, ?_⟩
  have hfinal := hlead.final
  rwa [Text.level_nil, add_zero] at hfinal

end Layout.Printer

/-! ### The text of a body -/

section Text

variable {body : Body} {unit base : String} {lines : List Line}

/-- The outer braces enclose all others. -/
theorem level_frame (hbase : Text.Braceless base.toList) (h : Walk 1 1 1 (unlines lines)) :
    level (frame base lines).toList = 0 ∧ ∀ q, q <+: (frame base lines).toList → q ≠ [] →
      q ≠ (frame base lines).toList → 0 < level q := by
  have hmiddle : Walk 1 1 1 ('\n' :: (unlines lines ++ base.toList)) :=
    (h.more hbase).behind (s := ['\n']) (by decide)
  have hcons (r : List Char) : level ('{' :: r) = 1 + level r := Text.level_append ['{'] r
  rw [toList_frame]
  constructor
  · have hclose : level ['}'] = -1 := rfl
    have hfinal := hmiddle.final
    rw [hcons, Text.level_append, hclose]
    omega
  · intro q hq hnil hall
    rcases List.prefix_cons_iff.1 hq with rfl | ⟨r, rfl, hr⟩
    · exact absurd rfl hnil
    · rcases List.prefix_concat_iff.1 hr with rfl | hr
      · exact absurd rfl hall
      · rw [hcons]
        exact hmiddle.floor r hr

theorem count_frame (hbase : Text.Braceless base.toList) :
    (frame base lines).toList.count '{' = 1 + (unlines lines).count '{' := by
  rw [toList_frame, List.count_cons_self, List.count_append, List.count_cons_of_ne (by decide),
    List.count_append, hbase.count_eq]
  simp [Nat.add_comm]

/-- What a layout of a body without nested bodies needs. -/
abbrev Body.printer (body : Body) (unit base : String) : Printer :=
  ⟨body, base.toList, unit.toList, []⟩

/-- A body without nested bodies is laid out when its loops have their conditions. -/
theorem exists_page (tree : body.TreeShaped) (hloops : ∀ c, ¬ body.LacksCondition c)
    (unit base : String) : ∃ page, (body.printer unit base).page = .ok page ∧ page.placed = 0 := by
  have hinside := Printer.inside_eq_nil (p := body.printer unit base) rfl
  have hsettles := Printer.settles_page (p := body.printer unit base) tree fun v _ =>
    ⟨_, by rw [hinside, splice_nil]⟩
  generalize (body.printer unit base).page = result at hsettles
  cases hsettles with
  | @ok page hplaced =>
    refine ⟨page, rfl, hplaced.trans (List.sum_eq_zero fun n hn => ?_)⟩
    obtain ⟨v, -, rfl⟩ := List.mem_map.1 hn
    rw [hinside, List.length_nil]
  | lacks hc => exact absurd hc (hloops _)

/-- **Braces mirror the tree.** Where no text holds a brace of its own and every loop has its
condition, a body is laid out, and its outer braces enclose all others. The layout comes to every block
that is no rung of a ladder, and wherever it does, as many braces are open before each statement of the
block as its depth says, and one more. Each such block has its pair of braces, and so has each true
branch that is not there. -/
theorem renderBody_mirrors_tree (tree : body.TreeShaped) (hbody : body.Braceless)
    (hunit : Text.Braceless unit.toList) (hbase : Text.Braceless base.toList)
    (hloops : ∀ c, ¬ body.LacksCondition c) :
    ∃ text, renderBody body unit base [] = .ok text ∧
      (level text.toList = 0 ∧
        ∀ q, q <+: text.toList → q ≠ [] → q ≠ text.toList → 0 < level q) ∧
      (∀ id, body.Reaches Body.root id → ∃! depth, body.NestsAt id depth) ∧
      (∀ id depth, body.NestsAt id depth → id ∉ body.elseIfs →
        ∃ k front, (body.printer unit base).Writes k (.block id (depth + 1)) front) ∧
      (∀ k front id d b, (body.printer unit base).Writes k (.block id d) front →
        body.block id = .ok b → ∃ depth, d = depth + 1 ∧ body.NestsAt id depth ∧
          ∀ above t below, b.statements = above ++ t :: below →
            (body.printer unit base).Stands text k front (depth + 1) above t) ∧
      ∃ ids, body.reachable = .ok ids ∧
        text.toList.count '{' = 1 + (ids.countP fun id => id ≠ Body.root ∧ id ∉ body.elseIfs) +
          (ids.flatMap body.statementsAt).countP Statement.lacksBranch ∧
        text.toList.count '}' = text.toList.count '{' := by
  obtain ⟨page, hpage, hplaced⟩ := exists_page tree hloops unit base
  have plain : (body.printer unit base).Plain := ⟨hbase, hunit, hbody⟩
  have hlay : (body.printer unit base).lay (2 * body.maxDepth) (.block Body.root 1) = .ok page :=
    hpage
  have hrender : renderBody body unit base [] = .ok (frame base page.lines) := by
    rw [renderBody, hpage, ok_bind, hplaced]
    rfl
  have hwalk : Walk 1 1 1 (unlines page.lines) :=
    Printer.walk_lay plain rfl hlay .self ⟨by simp, by simp, by simp⟩
  obtain ⟨ids, hids⟩ := tree.nests_root.exists_below
  have hframe := level_frame hbase hwalk
  refine ⟨_, hrender, hframe, fun _ => tree.existsUnique_nestsAt, fun id depth hnests hid =>
    (hnests.exists_writes tree rfl rfl hpage).1 hid, ?_, ids, hids, ?_, ?_⟩
  · intro k front id d b hwrites hb
    obtain ⟨depth, rfl, hnests, -⟩ := hwrites.nests tree
    refine ⟨depth, rfl, hnests, fun above t below hsplit => ?_⟩
    obtain ⟨k', pages, part, back, hk, hpages, hpart, hne, hlines, hlevel⟩ :=
      hwrites.exists_statement plain rfl hpage hb hsplit
    have htext : frame (String.ofList (body.printer unit base).base) page.lines =
        frame base page.lines := congrArg (frame · page.lines) String.ofList_toList
    refine ⟨k', pages, part, back, hk, hpages, hpart, hne, by rw [← hlines, htext], ?_⟩
    have hopen : level ['{', '\n'] = 1 := rfl
    rw [Text.level_append, hopen, hlevel, Nat.cast_add_one]
  · have hcount : (unlines page.lines).count '{' = body.load body.opensAt Body.root :=
      Printer.count_lay plain rfl tree hlay .self
    rw [count_frame hbase, hcount, tree.load_opensAt hids, Nat.add_assoc]
  · have hzero := hframe.1
    rw [level] at hzero
    omega

end Text

/-- A ladder behind a label, without its first branch, with a loop in its second branch and a `try` at
its end. -/
def ladderBody : Body :=
  ⟨#[⟨[.other ⟨"x();", ByteRange.zero, Span.zero⟩,
        .labeled "l" (.conditional ⟨3, .source "a", none, some 1, Span.zero⟩) Span.zero],
      Span.zero, true, false, false⟩,
    ⟨[.conditional ⟨4, .source "b", some 2, some 3, Span.zero⟩], Span.zero, true, false, false⟩,
    ⟨[.compound ⟨.doWhile, "do", 4, some "while (c);", Span.zero⟩], Span.zero, true, false, false⟩,
    ⟨[.tryStatement ⟨"try", 5, [⟨"catch (E e)", 6⟩], some 7, Span.zero⟩], Span.zero, true, false,
      false⟩,
    ⟨[.exit .breaks ⟨"break l;", ByteRange.zero, Span.zero⟩], Span.zero, true, false, false⟩,
    Block.synthetic, Block.synthetic, Block.synthetic]⟩

theorem statement_ladderBody {id : BlockId} {b : Block} {t : Statement}
    (hb : ladderBody.block id = .ok b) (ht : t ∈ b.statements) : t ∈ ladderBody.statements :=
  List.mem_flatMap.2 ⟨b, Array.mem_toList_iff.2 (Array.mem_of_getElem? (Body.block_eq_ok.1 hb)), ht⟩

theorem not_lacksCondition_ladderBody (c : Compound) : ¬ ladderBody.LacksCondition c := by
  rintro ⟨id, b, t, -, hb, ht, hc, -, htrailer⟩
  have hmem := statement_ladderBody hb ht
  simp only [ladderBody, Body.statements, Block.synthetic, List.flatMap_cons, List.flatMap_nil,
    List.cons_append, List.nil_append, List.mem_cons, List.not_mem_nil, or_false] at hmem
  rcases hmem with rfl | rfl | rfl | rfl | rfl | rfl <;> cases hc
  cases htrailer

theorem braceless_ladderBody : ladderBody.Braceless := by
  intro id b _ hb t ht
  have hall : ∀ t ∈ ladderBody.statements, ∀ w ∈ t.words, Text.Braceless w.toList := by decide
  exact hall t (statement_ladderBody hb ht)

/-- Three braces are open before the exit in the loop, and there are eight pairs in all: one around the
body, one around the branch that is not there, and one around each further block but the rung. -/
theorem renderBody_mirrors_tree_ladder :
    (ladderBody.TreeShaped ∧ ladderBody.Braceless ∧ Text.Braceless "  ".toList ∧
      Text.Braceless "\t".toList ∧ ∀ c, ¬ ladderBody.LacksCondition c) ∧
    ∃ text, renderBody ladderBody "  " "\t" [] = .ok text ∧ text.toList.count '{' = 8 ∧
      ∃ lines back, text = frame "\t" (lines ++ back) ∧ level (['{', '\n'] ++ unlines lines) = 3 := by
  have tree : ladderBody.TreeShaped := ⟨by decide, by decide, by decide, by decide⟩
  have hunit : Text.Braceless "  ".toList := by decide
  have hbase : Text.Braceless "\t".toList := by decide
  refine ⟨⟨tree, braceless_ladderBody, hunit, hbase, not_lacksCondition_ladderBody⟩, ?_⟩
  obtain ⟨text, htext, -, -, hblocks, hstatements, ids, hids, hopen, -⟩ := renderBody_mirrors_tree tree
    braceless_ladderBody hunit hbase not_lacksCondition_ladderBody
  have hreachable : ladderBody.reachable = .ok [0, 1, 2, 4, 3, 5, 6, 7] := by decide
  refine ⟨text, htext, ?_, ?_⟩
  · obtain rfl : [0, 1, 2, 4, 3, 5, 6, 7] = ids := Except.ok.inj (hreachable.symm.trans hids)
    rw [hopen]
    decide
  · have hrung : ladderBody.NestsAt 1 0 := .elseIf .root ⟨_, rfl, by decide⟩ (by decide)
    have hbranch : ladderBody.NestsAt 2 1 := .block hrung ⟨_, rfl, by decide⟩ (by decide)
    have hloop : ladderBody.NestsAt 4 2 := .block hbranch ⟨_, rfl, by decide⟩ (by decide)
    obtain ⟨k, front, hwrites⟩ := hblocks 4 2 hloop (by decide)
    obtain ⟨depth, hdepth, -, hall⟩ := hstatements k front 4 3 _ hwrites rfl
    obtain rfl : depth = 2 := (Nat.succ.inj hdepth).symm
    obtain ⟨k', pages, part, back, -, -, -, -, hlines, hlevel⟩ := hall [] _ [] rfl
    exact ⟨_, _, hlines, hlevel⟩

end BranchExclusion
