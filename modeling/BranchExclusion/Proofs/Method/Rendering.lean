import BranchExclusion.Proofs.Layout.Growth
import BranchExclusion.Proofs.Method.Blocks

/-!
# The text of an instrumented method

* `FlagStyle.Inserts`, `FlagStyle.Row`: the statements that instrumentation adds, and their lines;
* `Body.load`: how much is added to a block and to all blocks below it;
* `Body.SideBySide`, `Body.Woven.sideBySide`: the layouts of a body before and after;
* `Method.rendering_adds_lines`: instrumentation only adds lines to the text of a method.
-/

namespace BranchExclusion

open Layout

/-! ### Statements and their lines -/

namespace FlagStyle

variable (style : FlagStyle) (chains : List Chain)

/-- A statement that instrumentation adds. -/
inductive Inserts : Statement → Prop
  | declaration {m : Member} : m ∈ chains.flatMap Chain.members → Inserts (style.declaration m)
  | raised {m : Member} : m ∈ chains.flatMap Chain.members → Inserts (style.raised m)
  | exclusion {p : Member × Member} : p ∈ chains.flatMap Chain.pairs →
      Inserts (style.exclusion p.1 p.2)

/-- A line that instrumentation adds, behind the indentation of some depth. -/
inductive Row (base unit : Line) : Line → Prop
  | declaration {m : Member} (depth : ℕ) : m ∈ chains.flatMap Chain.members →
      Row base unit (indentation base unit depth ++
        (style.flagType ++ " " ++ style.flagName m ++ " = false;").toList)
  | raised {m : Member} (depth : ℕ) : m ∈ chains.flatMap Chain.members →
      Row base unit (indentation base unit depth ++ (style.flagName m ++ " = true;").toList)
  | exclusion {p : Member × Member} (depth : ℕ) : p ∈ chains.flatMap Chain.pairs →
      Row base unit (indentation base unit depth ++
        ("assert " ++ style.flagName p.1 ++ " ^ " ++ style.flagName p.2 ++ ";").toList)

/-- How many statements are added to a block. -/
def added (id : BlockId) : ℕ :=
  (style.declarations chains id).length + (style.raises (chains.flatMap Chain.members) id).length +
    (style.exclusions chains id).length

variable {style chains} {t : Statement} {id : BlockId}

theorem Inserts.row (h : style.Inserts chains t) (p : Printer)
    (block : BlockId → ℕ → Except RenderError Page)
    (conditional : Conditional → ℕ → Line → Except RenderError Page) (depth : ℕ) :
    ∃ l, p.statement block conditional t depth [] = .ok (.line l) ∧
      style.Row chains p.base p.unit l := by
  cases h with
  | declaration hm =>
    refine ⟨_, ?_, .declaration depth hm⟩
    simp [FlagStyle.declaration, Printer.statement, Printer.row, Printer.indent, exprText]
  | raised hm =>
    refine ⟨_, ?_, .raised depth hm⟩
    simp [FlagStyle.raised, Printer.statement, Printer.row, Printer.indent, exprText]
  | exclusion hp =>
    refine ⟨_, ?_, .exclusion depth hp⟩
    simp [FlagStyle.exclusion, Printer.statement, Printer.row, Printer.indent, exprText,
      operandText, isWord]

theorem inserts_of_mem (h : t ∈ style.declarations chains id ++
    style.raises (chains.flatMap Chain.members) id ++ style.exclusions chains id) :
    style.Inserts chains t := by
  rcases List.mem_append.1 h with h | h
  · rcases List.mem_append.1 h with h | h
    · obtain ⟨c, hc, ht⟩ := List.mem_flatMap.1 h
      obtain ⟨m, hm, rfl⟩ := List.mem_map.1 ht
      exact .declaration (List.mem_flatMap.2 ⟨c, (List.mem_filter.1 hc).1, hm⟩)
    · obtain ⟨m, hm, rfl⟩ := List.mem_map.1 h
      exact .raised (List.mem_filter.1 hm).1
  · obtain ⟨c, hc, ht⟩ := List.mem_flatMap.1 h
    obtain ⟨p, hp, rfl⟩ := List.mem_map.1 ht
    exact .exclusion (List.mem_flatMap.2 ⟨c, (List.mem_filter.1 hc).1, hp⟩)

end FlagStyle

theorem Block.adds_weave {New : Statement → Prop} {d a e : List Statement} (b : Block)
    (h : ∀ t ∈ d ++ a ++ e, New t) :
    Adds New (d.length + a.length + e.length) b.statements (b.weave d a e).statements := by
  have hd := Adds.all (P := New) fun t (ht : t ∈ d ++ a) => h t (List.mem_append_left _ ht)
  have he := Adds.all (P := New) fun t (ht : t ∈ e) => h t (List.mem_append_right _ ht)
  have hk := take_drop_take (l := b.statements) (Nat.le_max_left b.front b.assertionIndex)
  have happ := ((((Adds.refl New (b.statements.take b.front)).append hd).append
    (Adds.refl New ((b.statements.take (max b.front b.assertionIndex)).drop b.front))).append
      he).append (Adds.refl New (b.statements.drop (max b.front b.assertionIndex)))
  simp only [List.append_nil, hk, List.take_append_drop] at happ
  simpa [weave] using happ

namespace Body

variable {body placed : Body} {style : FlagStyle} {chains : List Chain} {id x : BlockId} {b : Block}

theorem Woven.adds (hw : body.Woven placed (style.declarations chains)
      (style.raises (chains.flatMap Chain.members)) (style.exclusions chains))
    (hb : body.block id = .ok b) : ∃ b', placed.block id = .ok b' ∧
      Adds (style.Inserts chains) (style.added chains id) b.statements b'.statements :=
  ⟨_, hw.block_eq hb, b.adds_weave fun _ => FlagStyle.inserts_of_mem⟩

/-! ### Alternatives -/

/-- Nothing is added to an alternative, unless it has two conditionals of its own. -/
theorem Placement.alternative (hp : body.Placement chains) (tree : body.TreeShaped)
    {c : Conditional} (hc : body.Holds c) (hx : c.elseBranch = some x) (hb : body.block x = .ok b) :
    2 ≤ b.conditionals.length ∨ style.added chains x = 0 := by
  by_cases hhome : ∃ ch ∈ chains, ch.home = x
  · obtain ⟨ch, hch, rfl⟩ := hhome
    obtain ⟨b', hb', hl⟩ := hp.home ch hch
    exact .inl (block_unique hb' hb ▸ hl)
  · have hhome' : ∀ ch ∈ chains, ch.home ≠ x := fun ch hch heq => hhome ⟨ch, hch, heq⟩
    have hbranch : ∀ m ∈ chains.flatMap Chain.members, m.thenBranch ≠ x := by
      -- the owner of a branch is one statement, and its alternative is another block
      rintro m hm rfl
      obtain ⟨ch, hch, hm⟩ := List.mem_flatMap.1 hm
      obtain ⟨r, br, cr, -, hbr, hcr, hmr⟩ := hp.adopts ch hch m hm
      obtain ⟨id, bi, t, -, hbi, ht, htc⟩ := hc
      have hmem : m.thenBranch ∈ t.childBlocks := by
        rw [← t.childBlocks_unlabeled, htc]
        simp [hx]
      have hmemr : m.thenBranch ∈ (Statement.conditional cr).childBlocks := by
        simp [(Member.of?_eq_some.1 hmr).1]
      have howner : id = r := tree.owner_unique ⟨bi, hbi, List.mem_flatMap.2 ⟨t, ht, hmem⟩⟩
        ⟨br, hbr, List.mem_flatMap.2 ⟨_, hcr, hmemr⟩⟩
      subst howner
      obtain rfl := block_unique hbi hbr
      have hsame := tree.statement_unique hbi ht hcr hmem hmemr
      subst hsame
      cases htc
      have hnodup := (List.nodup_flatMap.1 (tree.nodup_childBlocks hbi)).1 _ ht
      rw [Statement.childBlocks_conditional, (Member.of?_eq_some.1 hmr).1, hx] at hnodup
      simp at hnodup
    refine .inr ?_
    rw [FlagStyle.added, FlagStyle.declarations_eq_nil hhome', FlagStyle.raises_eq_nil hbranch,
      FlagStyle.exclusions_eq_nil hhome']
    rfl

/-! ### Loads -/

/-- The sum of `w` over a block and all blocks below it. -/
def load (body : Body) (w : BlockId → ℕ) (id : BlockId) : ℕ :=
  (((body.below body.maxDepth id).toOption.getD []).map w).sum

variable {w : BlockId → ℕ}

theorem load_of_below {n : ℕ} {ids : List BlockId} (h : body.below n id = .ok ids)
    (hle : n ≤ body.maxDepth) : body.load w id = (ids.map w).sum := by
  rw [load, below_mono h hle]
  rfl

theorem load_eq (tree : body.TreeShaped) (hr : body.Reaches root id) (hb : body.block id = .ok b) :
    body.load w id = w id + (b.childBlocks.map (body.load w)).sum := by
  obtain ⟨ids, hids⟩ := (tree.nests_root.of_reaches hr).exists_below
  rw [load_of_below hids (Nat.le_refl _)]
  obtain ⟨b', lists, hb', hl, rfl⟩ := below_succ.1 hids
  obtain rfl := block_unique hb hb'
  rw [List.map_cons, List.sum_cons]
  congr 1
  clear hids
  generalize b.childBlocks = children at hl
  induction hl with
  | nil => rfl
  | cons hc _ ih =>
    rw [List.flatten_cons, List.map_append, List.sum_append, ih, List.map_cons, List.sum_cons,
      load_of_below hc (Nat.le_succ _)]

/-! ### Side by side -/

theorem sum_map_flatMap {α β : Type} (l : List α) (f : α → List β) (g : β → ℕ) :
    ((l.flatMap f).map g).sum = (l.map fun a => ((f a).map g).sum).sum := by
  rw [List.map_flatMap, List.flatMap_def, List.sum_flatten, List.map_map]
  rfl

theorem sum_childBlocks (b : Block) (w : BlockId → ℕ) :
    (b.statements.map fun t => (t.childBlocks.map w).sum).sum = (b.childBlocks.map w).sum :=
  (sum_map_flatMap b.statements Statement.childBlocks w).symm

/-- Two conditionals in the block stay two conditionals when statements are added. -/
theorem not_single_of_two_le {New : Statement → Prop} {n : ℕ} {l : List Statement}
    (h : Adds New n b.statements l) (hl : 2 ≤ b.conditionals.length) (c : Conditional) :
    l ≠ [.conditional c] := by
  rintro rfl
  have hle := (h.sublist.filterMap Statement.conditional?).length_le
  unfold Block.conditionals at hl
  simp only [List.filterMap_cons, Statement.conditional?, List.filterMap_nil,
    List.length_singleton] at hle
  omega

/-- With `fuel` levels left, what lies below the root of `body` is laid out in `body` and in
`placed` with the same error, or with a line more in `placed` for each statement that was added. -/
structure SideBySide (style : FlagStyle) (chains : List Chain) (body placed : Body)
    (base unit : Line) (nested : List Edit) (fuel : ℕ) : Prop where
  block : ∀ {id}, body.Reaches root id → ∀ depth, Together
    (Page.Adds (style.Row chains base unit) (body.load (style.added chains) id))
    (Printer.block ⟨body, base, unit, nested⟩ fuel id depth)
    (Printer.block ⟨placed, base, unit, nested⟩ fuel id depth)
  conditional : ∀ {c}, body.Holds c → ∀ depth lead, Together
    (Page.Adds (style.Row chains base unit)
      ((Statement.conditional c).childBlocks.map (body.load (style.added chains))).sum)
    (Printer.conditional ⟨body, base, unit, nested⟩ fuel c depth lead)
    (Printer.conditional ⟨placed, base, unit, nested⟩ fuel c depth lead)

namespace SideBySide

variable {base unit : Line} {nested : List Edit} {fuel : ℕ} {c : Conditional}
  (h : SideBySide style chains body placed base unit nested fuel)
include h

theorem branch (hc : body.Holds c) (depth : ℕ) : Together
    (Page.Adds (style.Row chains base unit)
      (c.thenBranch.toList.map (body.load (style.added chains))).sum)
    (Printer.branch ⟨body, base, unit, nested⟩ fuel depth c.thenBranch)
    (Printer.branch ⟨placed, base, unit, nested⟩ fuel depth c.thenBranch) := by
  cases ht : c.thenBranch with
  | none => exact .ok (.refl _ _)
  | some x =>
    rw [Option.toList_some, List.map_singleton, List.sum_singleton]
    exact h.block (hc.reaches (by simp [ht])) depth

variable (tree : body.TreeShaped) (hp : body.Placement chains)
  (hw : body.Woven placed (style.declarations chains)
    (style.raises (chains.flatMap Chain.members)) (style.exclusions chains))
include tree hp hw

/-- The shape of an alternative decides whether it is a rung of a ladder, and stays what it is. -/
theorem alternative (hc : body.Holds c) {n : ℕ} {top top' : Page}
    (htop : top.Adds (style.Row chains base unit) n top') (depth : ℕ) : Together
    (Page.Adds (style.Row chains base unit)
      (n + (c.elseBranch.toList.map (body.load (style.added chains))).sum))
    (Printer.alternative ⟨body, base, unit, nested⟩ fuel depth top c.elseBranch)
    (Printer.alternative ⟨placed, base, unit, nested⟩ fuel depth top' c.elseBranch) := by
  cases halt : c.elseBranch with
  | none => exact .ok (htop.append (.refl _ _))
  | some x =>
    have hrx : body.Reaches root x := hc.reaches (by simp [halt])
    obtain ⟨b, hb⟩ := (tree.nests_root.of_reaches hrx).exists_block
    obtain ⟨b', hb', hadds⟩ := hw.adds hb
    have hshape : 2 ≤ b.conditionals.length ∨ style.added chains x = 0 :=
      hp.alternative tree hc halt hb
    by_cases hrung : ∃ rung, b.statements = [.conditional rung]
    · obtain ⟨rung, hrung⟩ := hrung
      have hzero : style.added chains x = 0 := by
        refine hshape.resolve_left fun hl => ?_
        simp [Block.conditionals, hrung, Statement.conditional?] at hl
      have hrung' : b'.statements = [.conditional rung] := by
        rw [hzero, hrung] at hadds
        exact hadds.eq_of_zero
      have hload : ([x].map (body.load (style.added chains))).sum =
          ((Statement.conditional rung).childBlocks.map (body.load (style.added chains))).sum := by
        rw [List.map_singleton, List.sum_singleton, load_eq tree hrx hb, hzero, Nat.zero_add,
          Block.childBlocks, hrung, List.flatMap_singleton]
      rw [Printer.alternative_rung hb hrung, Printer.alternative_rung hb' hrung',
        Option.toList_some, hload]
      have hholds : body.Holds rung := ⟨x, b, .conditional rung, hrx, hb, by simp [hrung], rfl⟩
      exact (h.conditional hholds _ _).bind fun r r' hr => .ok (htop.append hr)
    · have hrung' : ∀ rung, b'.statements ≠ [.conditional rung] := by
        intro rung hs
        rcases hshape with hl | hzero
        · exact not_single_of_two_le hadds hl rung hs
        · rw [hzero] at hadds
          exact hrung ⟨rung, by rw [← hadds.eq_of_zero, hs]⟩
      rw [Printer.alternative_block hb (fun rung hs => hrung ⟨rung, hs⟩),
        Printer.alternative_block hb' hrung', Option.toList_some, List.map_singleton,
        List.sum_singleton]
      refine (h.block hrx (depth + 1)).bind fun r r' hr => .ok ?_
      exact ((htop.append (.refl _ _)).append hr).append (.refl _ _)

theorem succ : SideBySide style chains body placed base unit nested (fuel + 1) where
  block {id} hr depth := by
    obtain ⟨b, hb⟩ := (tree.nests_root.of_reaches hr).exists_block
    obtain ⟨b', hb', hadds⟩ := hw.adds hb
    rw [Printer.block, Printer.block, hb, hb', load_eq tree hr hb, ← sum_childBlocks]
    refine (Printer.mapM_adds hadds (fun t ht => ?_) fun t ht => ht.row _ _ _ depth).bind
      fun ps qs hps => .ok hps
    refine Printer.statement_adds ⟨body, base, unit, nested⟩ placed t (fun x hx => ?_)
      (fun c hc => ?_) depth []
    · exact h.block (.child hr ⟨b, hb, List.mem_flatMap.2 ⟨t, ht, hx⟩⟩)
    · exact h.conditional ⟨id, b, t, hr, hb, ht, hc⟩
  conditional {c} hc depth lead := by
    rw [Printer.conditional_succ, Printer.conditional_succ, Statement.childBlocks_conditional,
      List.map_append, List.sum_append]
    exact (h.branch hc (depth + 1)).bind fun q q' hq =>
      h.alternative tree hp hw hc (hq.headed _) depth

end SideBySide

/-- **The layouts before and after.** Both fail with the same error, or the second has a line more
for each statement that was added. -/
theorem Woven.sideBySide (tree : body.TreeShaped) (hp : body.Placement chains)
    (hw : body.Woven placed (style.declarations chains)
      (style.raises (chains.flatMap Chain.members)) (style.exclusions chains))
    (base unit : Line) (nested : List Edit) (fuel : ℕ) :
    SideBySide style chains body placed base unit nested fuel := by
  induction fuel with
  | zero => exact ⟨fun _ _ => .error _, fun _ _ _ => .error _⟩
  | succ fuel ih => exact ih.succ tree hp hw

/-! ### How much is added -/

/-- Over the blocks of a list, the elements of each block make up all elements. -/
theorem sum_filter_key {α : Type} {ids : List BlockId} (hids : ids.Nodup) (key : α → BlockId)
    (f : α → ℕ) {l : List α} (hl : ∀ y ∈ l, key y ∈ ids) :
    (ids.map fun id => ((l.filter fun y => key y == id).map f).sum).sum = (l.map f).sum := by
  induction l with
  | nil => simp
  | cons y l ih =>
    have hsplit : ∀ id, (((y :: l).filter fun z => key z == id).map f).sum =
        (if key y = id then f y else 0) + ((l.filter fun z => key z == id).map f).sum := by
      intro id
      by_cases hy : key y = id <;> simp [hy]
    have hone : (ids.map fun id => if key y = id then f y else 0).sum = f y := by
      rw [List.sum_map_eq_nsmul_single (key y) _ fun id hne _ => if_neg (Ne.symm hne),
        List.count_eq_one_of_mem hids (hl y List.mem_cons_self)]
      simp
    simp only [hsplit, List.sum_map_add, hone, List.map_cons, List.sum_cons]
    rw [ih fun z hz => hl z (List.mem_cons_of_mem y hz)]

/-- **How much instrumentation adds**: two statements for each flag and one for each assertion. -/
theorem Placement.load_root (hp : body.Placement chains) (tree : body.TreeShaped) :
    body.load (style.added chains) root =
      2 * (Outcome.ofChains chains).flags + (Outcome.ofChains chains).assertions := by
  obtain ⟨ids, hids⟩ := tree.nests_root.exists_below
  have hnodup := tree.nodup_below .self hids
  have hhome : ∀ c ∈ chains, c.home ∈ ids := fun c hc => (mem_below hids).2 (hp.reaches c hc)
  have hbranch : ∀ m ∈ chains.flatMap Chain.members, m.thenBranch ∈ ids := by
    intro m hm
    obtain ⟨c, hc, hm⟩ := List.mem_flatMap.1 hm
    have hbelow := reaches_iff.2 (hp.adopts c hc m hm).below.to_reflTransGen
    exact (mem_below hids).2 ((hp.reaches c hc).trans hbelow)
  have hdecl : ∀ id, (style.declarations chains id).length =
      ((chains.filter fun c => c.home == id).map fun c => c.members.length).sum := by
    simp [FlagStyle.declarations, List.length_flatMap]
  have hraise : ∀ id, (style.raises (chains.flatMap Chain.members) id).length =
      (((chains.flatMap Chain.members).filter fun m => m.thenBranch == id).map fun _ => 1).sum := by
    simp [FlagStyle.raises]
  have hexcl : ∀ id, (style.exclusions chains id).length =
      ((chains.filter fun c => c.home == id).map fun c => c.pairs.length).sum := by
    simp only [FlagStyle.exclusions, List.length_flatMap, List.length_map, implies_true]
  have hadded : style.added chains = fun id => (style.declarations chains id).length +
      (style.raises (chains.flatMap Chain.members) id).length +
      (style.exclusions chains id).length := rfl
  rw [load_of_below hids (Nat.le_refl _), hadded]
  simp only [List.sum_map_add, hdecl, hraise, hexcl]
  rw [sum_filter_key hnodup Chain.home _ hhome, sum_filter_key hnodup Member.thenBranch _ hbranch,
    sum_filter_key hnodup Chain.home _ hhome]
  simp only [Outcome.ofChains, List.length_flatMap, List.map_const', List.sum_replicate,
    smul_eq_mul, Nat.mul_one]
  omega

end Body

/-! ### The text -/

theorem FlagStyle.not_mem_flagName {style : FlagStyle} (h : '\n' ∉ style.flagPrefix.toList)
    (m : Member) : '\n' ∉ (style.flagName m).toList := by
  rw [flagName, String.toList_append, List.mem_append]
  rintro (hc | hc)
  · exact h hc
  · have hdigit := Nat.isDigit_of_mem_toDigits (b := 10) (by decide) (by decide)
      (Nat.toList_repr (n := m.line) ▸ hc)
    exact absurd hdigit (by decide)

/-- A line that instrumentation adds has no line break in it. -/
theorem FlagStyle.Row.not_mem {style : FlagStyle} {chains : List Chain} {base unit l : Line}
    (h : style.Row chains base unit l) (hp : '\n' ∉ style.flagPrefix.toList)
    (ht : '\n' ∉ style.flagType.toList) (hb : '\n' ∉ base) (hu : '\n' ∉ unit) : '\n' ∉ l := by
  have hi := not_mem_indentation hb hu
  have hf := style.not_mem_flagName hp
  cases h with
  | declaration depth _ => simp [hi, hf, ht]
  | raised depth _ => simp [hi, hf]
  | exclusion depth _ => simp [hi, hf]

/-- **Instrumentation only adds lines to the text of a method.** Before and after, the layout fails
with the same error, or the text after has one more line for each declaration, assignment and
assertion, and all other lines stay as they are, in their order. -/
theorem Method.rendering_adds_lines (s : Scanner) (index : ℕ) (m : Method)
    (tree : m.body.TreeShaped) :
    ∃ after visits, m.discover s index = .ok ({ m with body := after }, visits) ∧
      ∀ style declaration placed outcome,
        let chains := (Registry.empty.add visits).forMethod index
        after.instrument style chains declaration = .ok (placed, outcome) →
        '\n' ∉ style.flagPrefix.toList → '\n' ∉ style.flagType.toList → ∀ unit base nested,
        (∀ e, renderBody placed unit base nested = .error e ↔
          renderBody after unit base nested = .error e) ∧
        ∀ text text', renderBody after unit base nested = .ok text →
          renderBody placed unit base nested = .ok text' →
          (∃ lines lines', text = frame base lines ∧ text' = frame base lines' ∧
            Adds (style.Row chains base.toList unit.toList)
              (2 * outcome.flags + outcome.assertions) lines lines') ∧
          ('\n' ∉ base.toList → '\n' ∉ unit.toList →
            Adds (style.Row chains base.toList unit.toList)
              (2 * outcome.flags + outcome.assertions) (text.toList.splitOn '\n')
              (text'.toList.splitOn '\n')) := by
  obtain ⟨after, visits, hdiscover, -, htree, hp, hwoven⟩ := m.exists_woven s index tree
  refine ⟨after, visits, hdiscover, ?_⟩
  intro style declaration placed outcome chains h hprefix htype unit base nested
  obtain ⟨rfl, hw⟩ := hwoven h
  have hpage := (hw.sideBySide htree hp base.toList unit.toList nested
    (2 * after.maxDepth)).block .self 1
  rw [hp.load_root htree] at hpage
  have hsize : placed.maxDepth = after.maxDepth := by rw [Body.maxDepth, Body.maxDepth, hw.size_eq]
  have hpages : Together (Page.Adds (style.Row chains base.toList unit.toList)
        (2 * (Outcome.ofChains chains).flags + (Outcome.ofChains chains).assertions))
      (Printer.page ⟨after, base.toList, unit.toList, nested⟩)
      (Printer.page ⟨placed, base.toList, unit.toList, nested⟩) := by
    rw [Printer.page, Printer.page, hsize]
    exact hpage
  have htext := renderBody_together hpages
  refine ⟨htext.error_iff, fun text text' ht ht' => ?_⟩
  rw [ht, ht'] at htext
  cases htext with
  | ok hlines =>
    refine ⟨hlines, fun hbase hunit => ?_⟩
    obtain ⟨lines, lines', rfl, rfl, hadds⟩ := hlines
    exact hadds.splitOn (fun l hl => hl.not_mem hprefix htype hbase hunit) base

/-- The small method gets two declarations, two assignments and an assertion, each on its line. -/
theorem Method.rendering_adds_lines_sample :
    Adds (FlagStyle.standard.Row [sampleChain] [] "  ".toList) 5
      (("\x7b\n  super();\n  if (a) \x7b\n    x();\n  \x7d\n  if (b) \x7b\n  \x7d\n" ++
        "  return;\n\x7d").toList.splitOn '\n')
      (("\x7b\n  super();\n  boolean branch3 = false;\n  boolean branch6 = false;\n" ++
        "  if (a) \x7b\n    branch3 = true;\n    x();\n  \x7d\n" ++
        "  if (b) \x7b\n    branch6 = true;\n  \x7d\n" ++
        "  assert branch3 ^ branch6;\n  return;\n\x7d").toList.splitOn '\n') := by
  obtain ⟨after, visits, hdiscover, h⟩ :=
    rendering_adds_lines .standard 0 sample treeShaped_sample
  obtain ⟨rfl, hchains⟩ := eq_of_discover_sample hdiscover
  rw [hchains] at h
  obtain ⟨-, htext⟩ := h .standard "A.A" samplePlaced ⟨1, 2, 1⟩ instrument_sample (by decide)
    (by decide) "  " "" []
  exact (htext _ _ (by decide +kernel) (by decide +kernel)).2 (by decide) (by decide)

end BranchExclusion
