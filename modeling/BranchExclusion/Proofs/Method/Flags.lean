import BranchExclusion.Proofs.Method.Blocks

/-!
# The flags of an instrumented method

* `Statement.declares`, `Statement.assigns`, `Statement.uses`: what a statement does with a flag;
* `Body.Flagless`: a body without declarations, assignments and assertions of its own;
* `Body.conditionalLines`: the lines of all conditionals of a body;
* `FlagStyle.flagName_inj`, `Body.Placement.member_unique`: distinct lines give distinct flags, and
  distinct members have distinct lines;
* `Method.flag_discipline`: every flag is declared once and raised once, and used in the scope of
  its declaration only.
-/

namespace BranchExclusion

/-! ### What statements do with flags -/

/-- The expression names the variable, outside source text. -/
def Expr.names (text : String) : Expr → Bool
  | .name other => other == text
  | .xor lhs rhs => lhs.names text || rhs.names text
  | .source _ | .bool _ => false

namespace Statement

/-- The statement declares the variable. -/
def declares (flag : String) (t : Statement) : Bool :=
  match t.unlabeled with
  | declaration _ name _ => name == flag
  | _ => false

/-- The statement assigns to the variable. -/
def assigns (flag : String) (t : Statement) : Bool :=
  match t.unlabeled with
  | assignment target _ => target == flag
  | _ => false

/-- The statement is an assignment or an assertion that mentions the variable. -/
def uses (flag : String) (t : Statement) : Bool :=
  match t.unlabeled with
  | assignment target value => target == flag || value.names flag
  | assertion condition => condition.names flag
  | _ => false

/-- The statement is a declaration, an assignment or an assertion. -/
def handlesVariables (t : Statement) : Bool :=
  match t.unlabeled with
  | declaration .. | assignment .. | assertion .. => true
  | _ => false

variable {t : Statement} {flag : String}

/-- A statement that handles no variables does nothing with a flag. -/
theorem of_handlesVariables_eq_false (h : t.handlesVariables = false) :
    t.declares flag = false ∧ t.assigns flag = false ∧ t.uses flag = false := by
  unfold handlesVariables at h
  unfold declares assigns uses
  generalize t.unlabeled = u at h ⊢
  cases u with
  | declaration type name value => cases h
  | assignment target value => cases h
  | assertion condition => cases h
  | _ => exact ⟨rfl, rfl, rfl⟩

end Statement

/-! ### All statements of a body -/

namespace Block

/-- The lines of the conditionals of a block, labels looked through. -/
def conditionalLines (b : Block) : List ℕ :=
  b.statements.filterMap fun t => t.unlabeled.conditional?.map Conditional.line

theorem line_mem_conditionalLines {b : Block} {c : Conditional}
    (hc : Statement.conditional c ∈ b.statements) : c.line ∈ b.conditionalLines :=
  List.mem_filterMap.2 ⟨_, hc, rfl⟩

/-- A filled branch changes no line. -/
theorem Filled.conditionalLines_eq {New : BlockId → Prop} {b b' : Block} (h : b.Filled New b') :
    b'.conditionalLines = b.conditionalLines := by
  obtain ⟨hs, -⟩ := h
  unfold conditionalLines
  generalize b.statements = l at hs ⊢
  generalize b'.statements = l' at hs ⊢
  induction hs with
  | nil => rfl
  | cons hs _ ih =>
    rw [List.filterMap_cons, List.filterMap_cons, ih]
    cases hs <;> rfl

end Block

namespace Body

variable {body after : Body} {id : BlockId} {b : Block} {t : Statement}

/-- All statements of the body, block by block. -/
def statements (body : Body) : List Statement := body.blocks.toList.flatMap Block.statements

/-- The body has no declaration, assignment or assertion that is told apart from other source. -/
def Flagless (body : Body) : Prop := ∀ t ∈ body.statements, t.handlesVariables = false

/-- The lines of all conditionals, block by block. -/
def conditionalLines (body : Body) : List ℕ :=
  body.statements.filterMap fun t => t.unlabeled.conditional?.map Conditional.line

theorem conditionalLines_eq_flatMap (body : Body) :
    body.conditionalLines = body.blocks.toList.flatMap Block.conditionalLines := by
  rw [conditionalLines, statements, List.filterMap_flatMap]
  rfl

theorem mem_statements :
    t ∈ body.statements ↔ ∃ id b, body.block id = .ok b ∧ t ∈ b.statements := by
  simp only [statements, List.mem_flatMap, block_eq_ok]
  constructor
  · rintro ⟨b, hb, h⟩
    obtain ⟨id, hid, rfl⟩ := List.getElem_of_mem hb
    exact ⟨id, _, by simp, h⟩
  · rintro ⟨id, b, hb, h⟩
    exact ⟨b, Array.mem_toList_iff.2 (Array.mem_of_getElem? hb), h⟩

/-- The blocks before and after a block. -/
theorem exists_statements_split (hb : body.block id = .ok b) : ∃ pre post,
    body.statements = pre ++ b.statements ++ post ∧ ∀ t, t ∈ pre ∨ t ∈ post →
      ∃ x c, x ≠ id ∧ body.block x = .ok c ∧ t ∈ c.statements := by
  rw [block_eq_ok] at hb
  obtain ⟨hlt, hget⟩ := Array.getElem?_eq_some_iff.1 hb
  have hlt' : id < body.blocks.toList.length := by simpa using hlt
  refine ⟨(body.blocks.toList.take id).flatMap Block.statements,
    (body.blocks.toList.drop (id + 1)).flatMap Block.statements, ?_, ?_⟩
  · rw [statements]
    conv_lhs => rw [← List.take_append_drop id body.blocks.toList, List.drop_eq_getElem_cons hlt']
    simp [hget]
  · intro t ht
    rcases ht with ht | ht
    · obtain ⟨c, hc, ht⟩ := List.mem_flatMap.1 ht
      obtain ⟨x, hx, hget⟩ := List.mem_take_iff_getElem.1 hc
      refine ⟨x, c, (Nat.lt_min.1 hx).1.ne, ?_, ht⟩
      rw [block_eq_ok, ← hget]
      simp
    · obtain ⟨c, hc, ht⟩ := List.mem_flatMap.1 ht
      obtain ⟨x, hx, hget⟩ := List.mem_drop_iff_getElem.1 hc
      refine ⟨id + 1 + x, c, Nat.ne_of_gt (Nat.lt_of_lt_of_le (Nat.lt_succ_self id)
        (Nat.le_add_right _ x)), ?_, ht⟩
      rw [block_eq_ok, ← hget]
      simp

/-- What is counted in one block only is counted there. -/
theorem countP_statements {p : Statement → Bool} (hb : body.block id = .ok b)
    (hother : ∀ x c, x ≠ id → body.block x = .ok c → ∀ t ∈ c.statements, p t = false) :
    body.statements.countP p = b.statements.countP p := by
  obtain ⟨pre, post, hsplit, hmem⟩ := exists_statements_split hb
  have hzero : ∀ l : List Statement, (∀ t ∈ l, t ∈ pre ∨ t ∈ post) → l.countP p = 0 := by
    refine fun l hl => countP_eq_zero_of_forall fun t ht => ?_
    obtain ⟨x, c, hx, hc, ht⟩ := hmem t (hl t ht)
    exact hother x c hx hc t ht
  rw [hsplit, List.countP_append, List.countP_append, hzero pre fun t => .inl,
    hzero post fun t => .inr, Nat.zero_add, Nat.add_zero]

/-- Filling in branches adds no statements, and neither changes lines nor handles variables. -/
theorem Filled.flagless (h : body.Filled after) (hb : body.Flagless) : after.Flagless := by
  intro t ht
  obtain ⟨id, b', hb', ht⟩ := mem_statements.1 ht
  rcases h.cases_block hb' with ⟨b, hbid, hf⟩ | ⟨-, rfl⟩
  · obtain ⟨u, hu, hut⟩ := forall₂_exists_left hf.1 ht
    cases hut with
    | same => exact hb t (mem_statements.2 ⟨id, b, hbid, hu⟩)
    | branch c x _ _ => rfl
  · cases ht

theorem Filled.conditionalLines_eq (h : body.Filled after) :
    after.conditionalLines = body.conditionalLines := by
  have hblocks : after.blocks.toList.map Block.conditionalLines =
      body.blocks.toList.map Block.conditionalLines ++
        List.replicate (after.size - body.size) [] := by
    refine List.ext_getElem? fun i => ?_
    rw [List.getElem?_map, List.getElem?_append, List.length_map, List.getElem?_map,
      Array.getElem?_toList, Array.getElem?_toList, Array.length_toList]
    split
    · next hlt =>
      obtain ⟨b, hb⟩ := exists_block hlt
      obtain ⟨b', hb', hf⟩ := h.old hb
      rw [block_eq_ok] at hb hb'
      rw [hb, hb', Option.map_some, Option.map_some, hf.conditionalLines_eq]
    · -- a block that was not there before is empty
      next hge =>
      by_cases hlt : i < after.size
      · obtain ⟨b', hb'⟩ := exists_block hlt
        rw [block_eq_ok.1 hb', h.new (Nat.not_lt.1 hge) hb', Option.map_some,
          List.getElem?_replicate_of_lt (by simp only [size] at *; omega)]
        rfl
      · rw [Array.getElem?_eq_none (Nat.not_lt.1 hlt), Option.map_none, eq_comm,
          List.getElem?_eq_none]
        rw [List.length_replicate]
        simp only [size] at *
        omega
  rw [conditionalLines_eq_flatMap, conditionalLines_eq_flatMap, List.flatMap_def, List.flatMap_def,
    hblocks, List.flatten_append, List.flatten_replicate_nil, List.append_nil]

/-- Conditionals with distinct lines: two that stand in some block and have one line are one. -/
theorem conditional_unique (hlines : body.conditionalLines.Nodup) {id id' : BlockId} {b b' : Block}
    {c c' : Conditional} (hb : body.block id = .ok b) (hb' : body.block id' = .ok b')
    (hc : Statement.conditional c ∈ b.statements) (hc' : Statement.conditional c' ∈ b'.statements)
    (heq : c.line = c'.line) : id = id' ∧ c = c' := by
  rw [conditionalLines_eq_flatMap] at hlines
  have hmem := Block.line_mem_conditionalLines hc
  have hmem' := Block.line_mem_conditionalLines hc'
  have hid : id = id' := eq_of_nodup_flatMap hlines hb hb' hmem (heq ▸ hmem')
  subst hid
  obtain rfl := block_unique hb hb'
  refine ⟨rfl, ?_⟩
  by_contra hne
  have hblock := (List.nodup_flatMap.1 hlines).1 b
    (Array.mem_toList_iff.2 (Array.mem_of_getElem? (block_eq_ok.1 hb)))
  rw [Block.conditionalLines, List.Nodup, List.pairwise_filterMap] at hblock
  have symm : Std.Symm fun t u : Statement => ∀ x,
      t.unlabeled.conditional?.map Conditional.line = some x → ∀ y,
      u.unlabeled.conditional?.map Conditional.line = some y → x ≠ y :=
    ⟨fun _ _ h y hy x hx => Ne.symm (h x hx y hy)⟩
  exact hblock.forall hc hc' (by simpa using hne) c.line rfl c'.line rfl heq

end Body

/-! ### Distinct flags -/

theorem FlagStyle.flagName_inj (style : FlagStyle) {m m' : Member} :
    style.flagName m = style.flagName m' ↔ m.line = m'.line := by
  constructor
  · intro h
    have hdigits : Nat.toDigits 10 m.line = Nat.toDigits 10 m'.line := by
      have hlist := congrArg String.toList h
      rw [flagName, flagName, String.toList_append, String.toList_append] at hlist
      simpa [Nat.toList_repr] using List.append_cancel_left hlist
    rw [← Nat.ofDigitChars_ten_toDigits (n := m.line), hdigits, Nat.ofDigitChars_ten_toDigits]
  · intro h
    rw [flagName, flagName, h]

namespace Body.Placement

variable {body : Body} {chains : List Chain} {m m' : Member}

/-- Members with one line are one member, when distinct conditionals have distinct lines. -/
theorem member_unique (hp : body.Placement chains) (hlines : body.conditionalLines.Nodup)
    (hm : m ∈ chains.flatMap Chain.members) (hm' : m' ∈ chains.flatMap Chain.members)
    (heq : m.line = m'.line) : m = m' := by
  obtain ⟨c, hc, hm⟩ := List.mem_flatMap.1 hm
  obtain ⟨c', hc', hm'⟩ := List.mem_flatMap.1 hm'
  obtain ⟨r, b, d, -, hb, hd, hdm⟩ := hp.adopts c hc m hm
  obtain ⟨r', b', d', -, hb', hd', hdm'⟩ := hp.adopts c' hc' m' hm'
  have hline : d.line = d'.line := by
    rw [(Member.of?_eq_some.1 hdm).2, (Member.of?_eq_some.1 hdm').2, heq]
  obtain ⟨-, rfl⟩ := conditional_unique hlines hb hb' hd hd' hline
  rw [hdm] at hdm'
  exact Option.some.inj hdm'

theorem nodup_lines (hp : body.Placement chains) (hlines : body.conditionalLines.Nodup) :
    ((chains.flatMap Chain.members).map Member.line).Nodup :=
  (List.Nodup.of_map _ hp.nodup).map_on fun _ hm _ hm' => hp.member_unique hlines hm hm'

/-- A member belongs to one chain. -/
theorem chain_unique (hp : body.Placement chains) {c c' : Chain} (hc : c ∈ chains)
    (hc' : c' ∈ chains) (hm : m ∈ c.members) (hm' : m ∈ c'.members) : c = c' := by
  by_contra hne
  have apart := (List.nodup_flatMap.1 (List.Nodup.of_map _ hp.nodup)).2
  have symm : Std.Symm (Function.onFun List.Disjoint Chain.members) :=
    ⟨fun _ _ h => List.Disjoint.symm h⟩
  exact (apart.forall hc hc' hne) hm hm'

end Body.Placement

/-! ### Where flags are handled -/

/-- No conditional stands before the front of a block. -/
theorem Block.conditional?_of_mem_take_front {b : Block} {t : Statement}
    (h : b.prologue = true → ∀ s, b.significant.head? = some s → s.conditional? = none)
    (ht : t ∈ b.statements.take b.front) : t.conditional? = none := by
  rcases b.front_cases with ⟨hf, -⟩ | ⟨hp, pre, s, post, hb, hs, hpre, hf⟩
  · rw [hf] at ht
    cases ht
  · have htake : b.statements.take b.front = pre ++ [s] := by
      rw [hf, hb, List.take_append, List.take_of_length_le (Nat.le_succ _)]
      simp
    rw [htake, List.mem_append, List.mem_singleton] at ht
    rcases ht with ht | rfl
    · have hcomment := hpre t ht
      cases t <;> first | rfl | cases hcomment
    · exact h hp t (head?_significant hb hs hpre)

namespace FlagStyle

variable {style : FlagStyle} {chains : List Chain} {m m' : Member} {id : BlockId} {t : Statement}

theorem mem_declarations : t ∈ style.declarations chains id ↔
    ∃ c ∈ chains, c.home = id ∧ ∃ m ∈ c.members, t = style.declaration m := by
  simp only [declarations, List.mem_flatMap, List.mem_filter, List.mem_map, beq_iff_eq, and_assoc,
    eq_comm (b := t)]

theorem mem_raises {members : List Member} : t ∈ style.raises members id ↔
    ∃ m ∈ members, m.thenBranch = id ∧ t = style.raised m := by
  simp only [raises, List.mem_map, List.mem_filter, beq_iff_eq, and_assoc, eq_comm (b := t)]

theorem mem_exclusions : t ∈ style.exclusions chains id ↔
    ∃ c ∈ chains, c.home = id ∧ ∃ p ∈ c.pairs, t = style.exclusion p.1 p.2 := by
  simp only [exclusions, List.mem_flatMap, List.mem_filter, List.mem_map, beq_iff_eq, and_assoc,
    eq_comm (b := t)]

theorem declares_declaration :
    (style.declaration m').declares (style.flagName m) = true ↔ m'.line = m.line := by
  rw [← style.flagName_inj]
  exact beq_iff_eq

theorem assigns_raised :
    (style.raised m').assigns (style.flagName m) = true ↔ m'.line = m.line := by
  rw [← style.flagName_inj]
  exact beq_iff_eq

theorem uses_raised : (style.raised m').uses (style.flagName m) = true ↔ m'.line = m.line := by
  rw [← style.flagName_inj, Statement.uses, raised]
  simp [Statement.unlabeled, Expr.names]

theorem uses_exclusion {p : Member × Member} :
    (style.exclusion p.1 p.2).uses (style.flagName m) = true ↔
      p.1.line = m.line ∨ p.2.line = m.line := by
  rw [← style.flagName_inj, ← style.flagName_inj, Statement.uses, exclusion]
  simp [Statement.unlabeled, Expr.names]

end FlagStyle

theorem Chain.mem_of_mem_pairs {c : Chain} {p : Member × Member} (h : p ∈ c.pairs) :
    p.1 ∈ c.members ∧ p.2 ∈ c.members := by
  obtain ⟨h₁, h₂⟩ := List.of_mem_zip (a := p.1) (b := p.2) h
  exact ⟨h₁, List.mem_of_mem_tail h₂⟩

/-! ### Every flag in its scope -/

/-- The flag of a member is declared once, at the front of the home; it is raised once, at the front
of the branch; and nothing uses it but what lies behind the declaration. -/
structure FlagDiscipline (style : FlagStyle) (body placed : Body) (home : BlockId) (m : Member) :
    Prop where
  declared_once : placed.statements.countP (Statement.declares (style.flagName m)) = 1
  raised_once : placed.statements.countP (Statement.assigns (style.flagName m)) = 1
  scope : ∃ b pre post, placed.block home = .ok b ∧
    b.statements = pre ++ style.declaration m :: post ∧
    (∀ t ∈ pre, t.conditional? = none ∧ t.uses (style.flagName m) = false) ∧
    ∀ id c t, id ≠ home → placed.block id = .ok c → t ∈ c.statements →
      t.uses (style.flagName m) = true → ∃ u ∈ post, ∃ x ∈ u.childBlocks, placed.Reaches x id
  raised_first : ∃ b c pre post, body.block m.thenBranch = .ok b ∧
    placed.block m.thenBranch = .ok c ∧ c.statements = pre ++ style.raised m :: post ∧
    (∀ t ∈ pre, ∃ m', t = style.declaration m') ∧ b.statements.Sublist post

namespace Body.Woven

variable {style : FlagStyle} {body placed : Body} {chains : List Chain} {c : Chain} {m : Member}
  {id : BlockId} {b : Block} {t : Statement}

section

variable (hp : body.Placement chains) (hflagless : body.Flagless)
  (hlines : body.conditionalLines.Nodup)
  (hw : body.Woven placed (style.declarations chains)
    (style.raises (chains.flatMap Chain.members)) (style.exclusions chains))
  (hc : c ∈ chains) (hm : m ∈ c.members)
include hp hflagless hlines hw hc hm

/-- Only the declaration of a member declares its flag. -/
theorem of_declares (hb : placed.block id = .ok b) (ht : t ∈ b.statements)
    (h : t.declares (style.flagName m) = true) : id = c.home ∧ t = style.declaration m := by
  obtain ⟨b₀, hb₀, ht | ht | ht | ht⟩ := hw.exists_mem hb ht
  · rw [(Statement.of_handlesVariables_eq_false
      (hflagless t (mem_statements.2 ⟨id, b₀, hb₀, ht⟩))).1] at h
    cases h
  · obtain ⟨c', hc', hhome, m', hm', rfl⟩ := FlagStyle.mem_declarations.1 ht
    obtain rfl := hp.member_unique hlines (List.mem_flatMap.2 ⟨c', hc', hm'⟩)
      (List.mem_flatMap.2 ⟨c, hc, hm⟩) (FlagStyle.declares_declaration.1 h)
    exact ⟨hhome ▸ congrArg Chain.home (hp.chain_unique hc' hc hm' hm), rfl⟩
  · obtain ⟨m', -, -, rfl⟩ := FlagStyle.mem_raises.1 ht
    cases h
  · obtain ⟨c', -, -, p, -, rfl⟩ := FlagStyle.mem_exclusions.1 ht
    cases h

/-- Only the assignment of a member assigns to its flag. -/
theorem of_assigns (hb : placed.block id = .ok b) (ht : t ∈ b.statements)
    (h : t.assigns (style.flagName m) = true) : id = m.thenBranch ∧ t = style.raised m := by
  obtain ⟨b₀, hb₀, ht | ht | ht | ht⟩ := hw.exists_mem hb ht
  · rw [(Statement.of_handlesVariables_eq_false
      (hflagless t (mem_statements.2 ⟨id, b₀, hb₀, ht⟩))).2.1] at h
    cases h
  · obtain ⟨c', -, -, m', -, rfl⟩ := FlagStyle.mem_declarations.1 ht
    cases h
  · obtain ⟨m', hm', hbranch, rfl⟩ := FlagStyle.mem_raises.1 ht
    obtain rfl := hp.member_unique hlines hm' (List.mem_flatMap.2 ⟨c, hc, hm⟩)
      (FlagStyle.assigns_raised.1 h)
    exact ⟨hbranch.symm, rfl⟩
  · obtain ⟨c', -, -, p, -, rfl⟩ := FlagStyle.mem_exclusions.1 ht
    cases h

/-- Only the branch and the home of a member use its flag. -/
theorem of_uses (hb : placed.block id = .ok b) (ht : t ∈ b.statements)
    (h : t.uses (style.flagName m) = true) : id = m.thenBranch ∨ id = c.home := by
  have hone : ∀ m' ∈ chains.flatMap Chain.members, m'.line = m.line → m' = m := fun m' hm' heq =>
    hp.member_unique hlines hm' (List.mem_flatMap.2 ⟨c, hc, hm⟩) heq
  obtain ⟨b₀, hb₀, ht | ht | ht | ht⟩ := hw.exists_mem hb ht
  · rw [(Statement.of_handlesVariables_eq_false
      (hflagless t (mem_statements.2 ⟨id, b₀, hb₀, ht⟩))).2.2] at h
    cases h
  · obtain ⟨c', -, -, m', -, rfl⟩ := FlagStyle.mem_declarations.1 ht
    cases h
  · obtain ⟨m', hm', hbranch, rfl⟩ := FlagStyle.mem_raises.1 ht
    obtain rfl := hone m' hm' (FlagStyle.uses_raised.1 h)
    exact .inl hbranch.symm
  · obtain ⟨c', hc', hhome, p, hpair, rfl⟩ := FlagStyle.mem_exclusions.1 ht
    obtain ⟨h₁, h₂⟩ := Chain.mem_of_mem_pairs hpair
    have hm' : m ∈ c'.members := by
      rcases FlagStyle.uses_exclusion.1 h with heq | heq
      · exact hone p.1 (List.mem_flatMap.2 ⟨c', hc', h₁⟩) heq ▸ h₁
      · exact hone p.2 (List.mem_flatMap.2 ⟨c', hc', h₂⟩) heq ▸ h₂
    exact .inr (hhome ▸ congrArg Chain.home (hp.chain_unique hc' hc hm' hm))

theorem countP_declares :
    placed.statements.countP (Statement.declares (style.flagName m)) = 1 := by
  obtain ⟨b, hb, -⟩ := hp.home c hc
  have hnone : ∀ t ∈ b.statements, t.declares (style.flagName m) = false := fun t ht =>
    (Statement.of_handlesVariables_eq_false (hflagless t (mem_statements.2 ⟨_, b, hb, ht⟩))).1
  have hdecl : (style.declarations chains c.home).countP
      (Statement.declares (style.flagName m)) = 1 := by
    -- the members at home here are some of all members, whose lines are distinct
    have hsub : ((chains.filter fun d => d.home == c.home).flatMap Chain.members).Sublist
        (chains.flatMap Chain.members) := List.filter_sublist.flatMap _
    have hmem : m ∈ (chains.filter fun d => d.home == c.home).flatMap Chain.members :=
      List.mem_flatMap.2 ⟨c, List.mem_filter.2 ⟨hc, by simp⟩, hm⟩
    have hcount := List.count_eq_one_of_mem
      ((hsub.map Member.line).nodup (hp.nodup_lines hlines)) (List.mem_map_of_mem hmem)
    rw [List.count, List.countP_map] at hcount
    rw [FlagStyle.declarations, ← List.map_flatMap, List.countP_map, ← hcount]
    refine List.countP_congr fun m' _ => ?_
    simpa using FlagStyle.declares_declaration
  rw [countP_statements (hw.block_eq hb), Block.countP_weave hnone, hdecl, countP_eq_zero_of_forall,
    countP_eq_zero_of_forall]
  · intro t ht
    obtain ⟨c', -, -, p, -, rfl⟩ := FlagStyle.mem_exclusions.1 ht
    rfl
  · intro t ht
    obtain ⟨m', -, -, rfl⟩ := FlagStyle.mem_raises.1 ht
    rfl
  · intro x d hx hd t ht
    by_contra hne
    exact hx (hw.of_declares hp hflagless hlines hc hm hd ht (by simpa using hne)).1

theorem countP_assigns (tree : body.TreeShaped) :
    placed.statements.countP (Statement.assigns (style.flagName m)) = 1 := by
  obtain ⟨p, hchild⟩ := (hp.adopts c hc m hm).exists_owner
  obtain ⟨b, hb⟩ := exists_block (tree.lt_size hchild)
  have hnone : ∀ t ∈ b.statements, t.assigns (style.flagName m) = false := fun t ht =>
    (Statement.of_handlesVariables_eq_false (hflagless t (mem_statements.2 ⟨_, b, hb, ht⟩))).2.1
  have hone : (style.raises (chains.flatMap Chain.members) m.thenBranch).countP
      (Statement.assigns (style.flagName m)) = 1 := by
    rw [FlagStyle.raises_eq_singleton hp.nodup (List.mem_flatMap.2 ⟨c, hc, hm⟩),
      List.countP_singleton, if_pos (FlagStyle.assigns_raised.2 rfl)]
  rw [countP_statements (hw.block_eq hb), Block.countP_weave hnone, hone, countP_eq_zero_of_forall,
    countP_eq_zero_of_forall]
  · intro t ht
    obtain ⟨c', -, -, p, -, rfl⟩ := FlagStyle.mem_exclusions.1 ht
    rfl
  · intro t ht
    obtain ⟨c', -, -, m', -, rfl⟩ := FlagStyle.mem_declarations.1 ht
    rfl
  · intro x d hx hd t ht
    by_contra hne
    exact hx (hw.of_assigns hp hflagless hlines hc hm hd ht (by simpa using hne)).1

/-- The declaration of a flag stands before every conditional of the home, and all uses behind it. -/
theorem flag_scope (hpro : body.PrologueAtRoot) : ∃ b pre post, placed.block c.home = .ok b ∧
    b.statements = pre ++ style.declaration m :: post ∧
    (∀ t ∈ pre, t.conditional? = none ∧ t.uses (style.flagName m) = false) ∧
    ∀ id d t, id ≠ c.home → placed.block id = .ok d → t ∈ d.statements →
      t.uses (style.flagName m) = true → ∃ u ∈ post, ∃ x ∈ u.childBlocks, placed.Reaches x id := by
  obtain ⟨b, d, x, hb, hd, hx, hreach⟩ := (hp.adopts c hc m hm).exists_conditional
  have hmem : style.declaration m ∈ style.declarations chains c.home :=
    FlagStyle.mem_declarations.2 ⟨c, hc, rfl, m, hm, rfl⟩
  obtain ⟨before, behind, hsplit⟩ := List.append_of_mem hmem
  have hbefore : ∀ t ∈ before, ∃ m', t = style.declaration m' := by
    intro t ht
    have ht' : t ∈ style.declarations chains c.home := by simp [hsplit, ht]
    obtain ⟨c', -, -, m', -, rfl⟩ := FlagStyle.mem_declarations.1 ht'
    exact ⟨m', rfl⟩
  have hfront : ∀ t ∈ b.statements.take b.front, t.conditional? = none := fun t ht => by
    refine Block.conditional?_of_mem_take_front (fun hbp s hs => ?_) ht
    have hroot := hpro.only_root hb hbp
    exact (hpro.first (hroot ▸ hb) hbp hs).2
  have hw' : (b.weave (style.declarations chains c.home)
      (style.raises (chains.flatMap Chain.members) c.home)
      (style.exclusions chains c.home)).statements =
      (b.statements.take b.front ++ before) ++ style.declaration m :: (behind ++
        style.raises (chains.flatMap Chain.members) c.home ++
        (b.statements.take (max b.front b.assertionIndex)).drop b.front ++
        style.exclusions chains c.home ++ b.statements.drop (max b.front b.assertionIndex)) := by
    simp [Block.weave, hsplit]
  have hpre : ∀ t ∈ b.statements.take b.front ++ before,
      t.conditional? = none ∧ t.uses (style.flagName m) = false := by
    intro t ht
    rcases List.mem_append.1 ht with ht | ht
    · refine ⟨hfront t ht, (Statement.of_handlesVariables_eq_false (hflagless t ?_)).2.2⟩
      exact mem_statements.2 ⟨_, b, hb, List.mem_of_mem_take ht⟩
    · obtain ⟨m', rfl⟩ := hbefore t ht
      exact ⟨rfl, rfl⟩
  refine ⟨_, _, _, hw.block_eq hb, hw', hpre, fun id d' t hid hd' ht huse => ?_⟩
  rcases hw.of_uses hp hflagless hlines hc hm hd' ht huse with rfl | rfl
  · -- the branch lies below a conditional of the home, which is behind the declaration
    refine ⟨.conditional d, ?_, x, hx, hw.reaches hreach⟩
    have hin := Block.mem_weave (d := style.declarations chains c.home)
      (a := style.raises (chains.flatMap Chain.members) c.home)
      (e := style.exclusions chains c.home) |>.2 (.inl hd)
    rw [hw', List.mem_append, List.mem_cons] at hin
    rcases hin with hin | hin | hin
    · cases (hpre _ hin).1
    · cases hin
    · exact hin
  · exact absurd rfl hid

omit hflagless hlines in
/-- The assignment of a member stands before every statement that its branch had. -/
theorem raised_first (tree : body.TreeShaped) (hpro : body.PrologueAtRoot) :
    ∃ b d pre post, body.block m.thenBranch = .ok b ∧ placed.block m.thenBranch = .ok d ∧
      d.statements = pre ++ style.raised m :: post ∧ (∀ t ∈ pre, ∃ m', t = style.declaration m') ∧
      b.statements.Sublist post := by
  obtain ⟨p, hchild⟩ := (hp.adopts c hc m hm).exists_owner
  obtain ⟨b, hb⟩ := exists_block (tree.lt_size hchild)
  -- a branch is not the root, so no constructor call stands before its statements
  have hfront : b.front = 0 := by
    refine Block.front_of_prologue_eq_false ?_
    by_contra hbp
    have hroot := hpro.only_root hb (by simpa using hbp)
    exact tree.not_isChild_root (hroot ▸ hchild)
  refine ⟨b, _, style.declarations chains m.thenBranch, b.statements.take b.assertionIndex ++
    style.exclusions chains m.thenBranch ++ b.statements.drop b.assertionIndex, hb, hw.block_eq hb,
    ?_, ?_, ?_⟩
  · rw [FlagStyle.raises_eq_singleton hp.nodup (List.mem_flatMap.2 ⟨c, hc, hm⟩)]
    simp [Block.weave, hfront]
  · intro t ht
    obtain ⟨c', -, -, m', -, rfl⟩ := FlagStyle.mem_declarations.1 ht
    exact ⟨m', rfl⟩
  · conv_lhs => rw [← List.take_append_drop b.assertionIndex b.statements]
    exact (List.sublist_append_left _ _).append (List.Sublist.refl _)

end

end Body.Woven

/-- **Flag discipline.** In a method without declarations, assignments and assertions of its own,
whose conditionals have distinct lines, the flag of every member of every chain is declared once and
raised once, and used in the scope of its declaration only. -/
theorem Method.flag_discipline (s : Scanner) (index : ℕ) (m : Method) (tree : m.body.TreeShaped)
    (hflagless : m.body.Flagless) (hlines : m.body.conditionalLines.Nodup)
    (hpro : m.body.PrologueAtRoot) :
    ∃ after visits, m.discover s index = .ok ({ m with body := after }, visits) ∧
      ∀ style declaration placed outcome,
        after.instrument style ((Registry.empty.add visits).forMethod index) declaration =
          .ok (placed, outcome) →
        ∀ c ∈ (Registry.empty.add visits).forMethod index, ∀ x ∈ c.members,
          FlagDiscipline style after placed c.home x := by
  obtain ⟨after, visits, hdiscover, hf, htree, hp, hwoven⟩ := m.exists_woven s index tree
  refine ⟨after, visits, hdiscover, fun style declaration placed outcome h c hc x hx => ?_⟩
  obtain ⟨-, hw⟩ := hwoven h
  have hflagless' := hf.flagless hflagless
  have hlines' : after.conditionalLines.Nodup := hf.conditionalLines_eq ▸ hlines
  have hpro' := hpro.filled hf
  exact ⟨hw.countP_declares hp hflagless' hlines' hc hx,
    hw.countP_assigns hp hflagless' hlines' hc hx htree,
    hw.flag_scope hp hflagless' hlines' hc hx hpro',
    hw.raised_first hp hc hx htree hpro'⟩

/-- The flag of the second conditional of the small method, whose branch was filled in. -/
theorem Method.flag_discipline_sample : sample.body.Flagless ∧
    sample.body.conditionalLines = [3, 6] ∧
    FlagDiscipline .standard sampleBody samplePlaced Body.root ⟨6, 2⟩ := by
  have hflagless : sample.body.Flagless := by
    unfold Body.Flagless
    decide
  obtain ⟨after, visits, hdiscover, h⟩ := flag_discipline .standard 0 sample treeShaped_sample
    hflagless (by decide) prologueAtRoot_sample
  obtain ⟨rfl, hchains⟩ := eq_of_discover_sample hdiscover
  rw [hchains] at h
  exact ⟨hflagless, by decide, h .standard "A.A" samplePlaced ⟨1, 2, 1⟩ instrument_sample
    sampleChain (by simp) ⟨6, 2⟩ (by decide)⟩

end BranchExclusion
