import BranchExclusion.Proofs.Method.Flags

/-!
# What the assertions of a chain check

An assertion is added for every adjacent pair of members, among the assertions of other chains and
those that the body had.

* `Body.newAssertions`, `FlagStyle.checks`: the assertions that were added, and those of them that
  are about one chain;
* `Body.Woven.perm_assertions`: all assertions of an instrumented body;
* `Body.Woven.perm_checks`: one assertion for each adjacent pair;
* `Method.assertions_alternate`: together they say that the flags alternate along the chain, which
  is no exclusion among more than two members.
-/

namespace BranchExclusion

/-- The condition of an assertion. -/
def Statement.assertion? : Statement → Option Expr
  | assertion condition => some condition
  | _ => none

/-- The conditions of all assertions, block by block. -/
def Body.assertions (body : Body) : List Expr := body.statements.filterMap Statement.assertion?

/-- The conditions of the assertions that `placed` has beyond those of `body`. -/
def Body.newAssertions (body placed : Body) : List Expr := placed.assertions.diff body.assertions

namespace FlagStyle

/-- The expression names the flag of a member of the chain. -/
def concerns (style : FlagStyle) (c : Chain) (e : Expr) : Bool :=
  c.members.any fun m => e.names (style.flagName m)

/-- The conditions that were added about the chain. -/
def checks (style : FlagStyle) (body placed : Body) (c : Chain) : List Expr :=
  (body.newAssertions placed).filter (style.concerns c)

/-- The members whose flags are raised. -/
def fired (style : FlagStyle) (value : String → Bool) (c : Chain) : List Member :=
  c.members.filter fun m => value (style.flagName m)

/-- One of the two flags is raised, and not both. -/
def apart (style : FlagStyle) (p : Member × Member) : Expr :=
  .xor (.name (style.flagName p.1)) (.name (style.flagName p.2))

end FlagStyle

/-! ### The assertions of an instrumented body -/

/-- What is put into a block joins its statements. -/
theorem Block.perm_weave (b : Block) (d a e : List Statement) :
    (b.weave d a e).statements.Perm (b.statements ++ (d ++ a ++ e)) := by
  have hsplit : b.statements = b.statements.take b.front ++
      (b.statements.take (max b.front b.assertionIndex)).drop b.front ++
      b.statements.drop (max b.front b.assertionIndex) := by
    rw [take_drop_take (Nat.le_max_left _ _), List.take_append_drop]
  conv_rhs => rw [hsplit]
  simp only [weave]
  rw [List.perm_iff_count]
  intro t
  simp only [List.count_append]
  omega

/-- A list, taken apart by a key of its elements. -/
theorem perm_flatMap_filter {α : Type} {ids : List BlockId} (hids : ids.Nodup) (key : α → BlockId)
    {l : List α} (hl : ∀ y ∈ l, key y ∈ ids) :
    (ids.flatMap fun id => l.filter fun y => key y == id).Perm l := by
  induction l with
  | nil => simp
  | cons y l ih =>
    have hsplit : ∀ id, (y :: l).filter (fun z => key z == id) =
        (if key y = id then [y] else []) ++ l.filter fun z => key z == id := by
      intro id
      by_cases hy : key y = id <;> simp [hy]
    have hone : (ids.flatMap fun id => if key y = id then [y] else []) = [y] := by
      obtain ⟨pre, post, rfl⟩ := List.append_of_mem (hl y List.mem_cons_self)
      have hother : ∀ id, id ∈ pre ∨ id ∈ post → key y ≠ id := by
        rintro id hid rfl
        rw [List.nodup_middle, List.nodup_cons, List.mem_append] at hids
        exact hids.1 hid
      have hnil : ∀ ids : List BlockId, (∀ id ∈ ids, id ∈ pre ∨ id ∈ post) →
          (ids.flatMap fun id => if key y = id then [y] else []) = [] := by
        refine fun ids h => List.flatMap_eq_nil_iff.2 fun id hid => if_neg (hother id (h id hid))
      rw [List.flatMap_append, List.flatMap_cons, hnil pre fun _ => .inl, hnil post fun _ => .inr]
      simp
    simp only [hsplit]
    refine (List.flatMap_append_perm ids _ _).symm.trans ?_
    rw [hone]
    exact (ih fun z hz => hl z (List.mem_cons_of_mem y hz)).cons y

namespace Body

variable {style : FlagStyle} {body placed : Body} {chains : List Chain} {c : Chain}

/-- The statements of the block with this number. -/
def statementsAt (body : Body) (id : BlockId) : List Statement :=
  ((body.block id).toOption.map Block.statements).getD []

theorem statementsAt_eq {id : BlockId} {b : Block} (hb : body.block id = .ok b) :
    body.statementsAt id = b.statements := by
  rw [statementsAt, hb]
  rfl

theorem statements_eq_flatMap (body : Body) :
    body.statements = (List.range body.size).flatMap body.statementsAt := by
  have hblocks : body.blocks.toList.map Block.statements =
      (List.range body.size).map body.statementsAt := by
    refine List.ext_getElem (by simp [size]) fun i hi _ => ?_
    rw [List.length_map, Array.length_toList] at hi
    rw [List.getElem_map, List.getElem_map, List.getElem_range, Array.getElem_toList]
    exact (statementsAt_eq (block_eq_ok.2 (Array.getElem?_eq_getElem hi))).symm
  rw [statements, List.flatMap_def, List.flatMap_def, hblocks]

/-- The statements of a woven body: those that were there, and those put into its blocks. -/
theorem Woven.perm_statements {d a e : BlockId → List Statement} (hw : body.Woven placed d a e) :
    placed.statements.Perm
      (body.statements ++ (List.range body.size).flatMap fun id => d id ++ a id ++ e id) := by
  have hblock : ∀ id ∈ List.range body.size, (placed.statementsAt id).Perm
      (body.statementsAt id ++ (d id ++ a id ++ e id)) := by
    intro id hid
    obtain ⟨b, hb⟩ := exists_block (List.mem_range.1 hid)
    rw [statementsAt_eq hb, statementsAt_eq (hw.block_eq hb)]
    exact b.perm_weave _ _ _
  rw [statements_eq_flatMap, statements_eq_flatMap body, hw.size_eq]
  exact (List.Perm.flatMap_left _ hblock).trans (List.flatMap_append_perm _ _ _).symm

/-- Nothing but the assertions of the chains is put into the blocks as an assertion. -/
theorem filterMap_assertion? (id : BlockId) :
    (style.declarations chains id ++ style.raises (chains.flatMap Chain.members) id ++
      style.exclusions chains id).filterMap Statement.assertion? =
    (chains.filter fun c => c.home == id).flatMap fun c => c.pairs.map style.apart := by
  have hdecl : (style.declarations chains id).filterMap Statement.assertion? = [] := by
    refine List.filterMap_eq_nil_iff.2 fun t ht => ?_
    obtain ⟨c, -, -, m, -, rfl⟩ := FlagStyle.mem_declarations.1 ht
    rfl
  have hraise : (style.raises (chains.flatMap Chain.members) id).filterMap
      Statement.assertion? = [] := by
    refine List.filterMap_eq_nil_iff.2 fun t ht => ?_
    obtain ⟨m, -, -, rfl⟩ := FlagStyle.mem_raises.1 ht
    rfl
  have hpair : ∀ p : Member × Member, (style.exclusion p.1 p.2).assertion? = some (style.apart p) :=
    fun _ => rfl
  rw [List.filterMap_append, List.filterMap_append, hdecl, hraise, FlagStyle.exclusions,
    List.filterMap_flatMap]
  simp [List.filterMap_map, hpair]

/-- **All assertions of an instrumented body**: those that were there, and one for each adjacent
pair of members of each chain. -/
theorem Woven.perm_assertions (hp : body.Placement chains)
    (hw : body.Woven placed (style.declarations chains)
      (style.raises (chains.flatMap Chain.members)) (style.exclusions chains)) :
    placed.assertions.Perm
      (body.assertions ++ chains.flatMap fun c => c.pairs.map style.apart) := by
  have hhome : ∀ c ∈ chains, c.home ∈ List.range body.size := by
    intro c hc
    obtain ⟨b, hb, -⟩ := hp.home c hc
    exact List.mem_range.2 (lt_size_of_block_eq_ok hb)
  refine (hw.perm_statements.filterMap Statement.assertion?).trans ?_
  rw [List.filterMap_append, List.filterMap_flatMap]
  simp only [filterMap_assertion?]
  rw [← List.flatMap_assoc]
  have hchains := perm_flatMap_filter List.nodup_range Chain.home hhome
  exact (hchains.flatMap fun _ _ => .refl _).append_left _

theorem Placement.nodup_chains (hp : body.Placement chains) : chains.Nodup := by
  have apart := (List.nodup_flatMap.1 (List.Nodup.of_map _ hp.nodup)).2
  refine apart.imp fun {c d} hdisjoint heq => ?_
  subst heq
  obtain ⟨m, hm⟩ := List.exists_mem_of_length_pos (Nat.lt_of_lt_of_le Nat.two_pos c.two_le)
  exact hdisjoint hm hm

/-- An assertion names flags of its own chain only. -/
theorem Placement.concerns_apart (hp : body.Placement chains)
    (hlines : body.conditionalLines.Nodup) (hc : c ∈ chains) {d : Chain} (hd : d ∈ chains)
    {p : Member × Member} (hpair : p ∈ d.pairs) :
    style.concerns c (style.apart p) = true ↔ d = c := by
  obtain ⟨hfirst, hsecond⟩ := Chain.mem_of_mem_pairs hpair
  have hnames : ∀ m, (style.apart p).names (style.flagName m) = true ↔
      p.1.line = m.line ∨ p.2.line = m.line := by
    intro m
    rw [← style.flagName_inj, ← style.flagName_inj]
    simp [FlagStyle.apart, Expr.names]
  have hsame : ∀ m ∈ c.members, ∀ m' ∈ d.members, m'.line = m.line → d = c := by
    intro m hm m' hm' heq
    obtain rfl := hp.member_unique hlines (List.mem_flatMap.2 ⟨d, hd, hm'⟩)
      (List.mem_flatMap.2 ⟨c, hc, hm⟩) heq
    exact hp.chain_unique hd hc hm' hm
  rw [FlagStyle.concerns, List.any_eq_true]
  constructor
  · rintro ⟨m, hm, h⟩
    rcases (hnames m).1 h with heq | heq
    · exact hsame m hm p.1 hfirst heq
    · exact hsame m hm p.2 hsecond heq
  · rintro rfl
    exact ⟨p.1, hfirst, (hnames p.1).2 (.inl rfl)⟩

/-- **The assertions about one chain**: one for each adjacent pair of its members. -/
theorem Woven.perm_checks (hp : body.Placement chains) (hlines : body.conditionalLines.Nodup)
    (hw : body.Woven placed (style.declarations chains)
      (style.raises (chains.flatMap Chain.members)) (style.exclusions chains)) (hc : c ∈ chains) :
    (style.checks body placed c).Perm (c.pairs.map style.apart) := by
  have hnew : (body.newAssertions placed).Perm (chains.flatMap fun c => c.pairs.map style.apart) := by
    refine ((hw.perm_assertions hp).diff_right body.assertions).trans ?_
    rw [List.perm_iff_count]
    intro e
    rw [List.count_diff, List.count_append, Nat.add_sub_cancel_left]
  have hother : ∀ l : List Chain, (∀ d ∈ l, d ∈ chains ∧ d ≠ c) →
      (l.flatMap fun d => d.pairs.map style.apart).filter (style.concerns c) = [] := by
    refine fun l hl => List.filter_eq_nil_iff.2 fun e he h => ?_
    obtain ⟨d, hd, he⟩ := List.mem_flatMap.1 he
    obtain ⟨p, hpair, rfl⟩ := List.mem_map.1 he
    exact (hl d hd).2 ((hp.concerns_apart hlines hc (hl d hd).1 hpair).1 h)
  have hself : (c.pairs.map style.apart).filter (style.concerns c) = c.pairs.map style.apart := by
    refine List.filter_eq_self.2 fun e he => ?_
    obtain ⟨p, hpair, rfl⟩ := List.mem_map.1 he
    exact (hp.concerns_apart hlines hc hc hpair).2 rfl
  refine (hnew.filter _).trans (.of_eq ?_)
  obtain ⟨pre, post, rfl⟩ := List.append_of_mem hc
  have hnodup := hp.nodup_chains
  rw [List.nodup_middle, List.nodup_cons, List.mem_append, not_or] at hnodup
  obtain ⟨⟨hpre, hpost⟩, -⟩ := hnodup
  rw [List.flatMap_append, List.flatMap_cons, List.filter_append, List.filter_append, hself,
    hother pre fun d hd => ⟨List.mem_append_left _ hd, fun heq => hpre (heq ▸ hd)⟩,
    hother post fun d hd => ⟨by simp [hd], fun heq => hpost (heq ▸ hd)⟩,
    List.nil_append, List.append_nil]

end Body

/-! ### What the assertions say together -/

namespace FlagStyle

variable {style : FlagStyle} {value : String → Bool} {c : Chain}

@[simp] theorem eval_apart (p : Member × Member) : (style.apart p).eval value =
    some (Bool.xor (value (style.flagName p.1)) (value (style.flagName p.2))) := rfl

/-- The adjacent pairs are those of an index and the next one. -/
theorem forall_mem_pairs {R : Member → Member → Prop} : (∀ p ∈ c.pairs, R p.1 p.2) ↔
    ∀ i (h : i + 1 < c.members.length), R c.members[i] c.members[i + 1] := by
  constructor
  · intro h i hi
    refine h (c.members[i], c.members[i + 1]) ?_
    rw [Chain.pairs, List.mem_iff_getElem]
    exact ⟨i, by simp; omega, by simp⟩
  · intro h p hp
    rw [Chain.pairs, List.mem_iff_getElem] at hp
    obtain ⟨i, hi, rfl⟩ := hp
    simp only [List.length_zip, List.length_tail] at hi
    simpa using h i (by omega)

/-- One exclusion for each adjacent pair says that the flags alternate. -/
theorem forall_apart_iff : (∀ p ∈ c.pairs, (style.apart p).eval value = some true) ↔
    ∀ i (h : i + 1 < c.members.length),
      value (style.flagName c.members[i + 1]) = !value (style.flagName c.members[i]) := by
  have hxor : ∀ a b : Bool, some (Bool.xor a b) = some true ↔ b = !a := by decide
  simp only [eval_apart, hxor]
  exact forall_mem_pairs (R := fun m n => value (style.flagName n) = !value (style.flagName m))

/-- Two flags alternate when exactly one of them is raised. -/
theorem length_fired_of_two (h : c.members.length = 2) :
    (∀ i (h : i + 1 < c.members.length),
      value (style.flagName c.members[i + 1]) = !value (style.flagName c.members[i])) ↔
    (style.fired value c).length = 1 := by
  obtain ⟨home, members, hle⟩ := c
  obtain ⟨a, b, rfl⟩ := List.length_eq_two.1 h
  have hfirst : (∀ i (h : i + 1 < [a, b].length),
      value (style.flagName [a, b][i + 1]) = !value (style.flagName [a, b][i])) ↔
      value (style.flagName b) = !value (style.flagName a) := by
    refine ⟨fun h => h 0 (by simp), fun h i hi => ?_⟩
    obtain rfl : i = 0 := by simp only [List.length_cons, List.length_nil] at hi; omega
    exact h
  rw [hfirst]
  cases ha : value (style.flagName a) <;> cases hb : value (style.flagName b) <;>
    simp [fired, ha, hb]

/-- Of four flags that alternate, two are raised. -/
theorem two_le_length_fired (h : 4 ≤ c.members.length)
    (halternate : ∀ i (h : i + 1 < c.members.length),
      value (style.flagName c.members[i + 1]) = !value (style.flagName c.members[i])) :
    2 ≤ (style.fired value c).length := by
  obtain ⟨home, members, hle⟩ := c
  match members, hle, h with
  | w :: x :: y :: z :: rest, hle, h =>
    have hx := halternate 0 (by simp)
    have hy := halternate 1 (by simp)
    have hz := halternate 2 (by simp)
    simp only [List.getElem_cons_zero, List.getElem_cons_succ, Nat.zero_add] at hx hy hz
    have hsub : ([w, x, y, z].filter fun m => value (style.flagName m)).length = 2 := by
      cases hw : value (style.flagName w) <;> simp [hw, hx, hy, hz]
    have hfour : [w, x, y, z].Sublist (w :: x :: y :: z :: rest) :=
      (List.prefix_append [w, x, y, z] rest).sublist
    rw [← hsub]
    exact (hfour.filter _).length_le

/-- Where no flag is raised, every exclusion is false. -/
theorem eval_apart_of_fired_eq_nil (h : (style.fired value c).length = 0) {p : Member × Member}
    (hp : p ∈ c.pairs) : (style.apart p).eval value = some false := by
  have hnone : ∀ m ∈ c.members, value (style.flagName m) = false := by
    simpa [fired] using h
  obtain ⟨hfirst, hsecond⟩ := Chain.mem_of_mem_pairs hp
  rw [eval_apart, hnone p.1 hfirst, hnone p.2 hsecond]
  rfl

end FlagStyle

/-- **What the assertions of a chain check.** In a tree-shaped method whose conditionals have
distinct lines, an assertion is added for each adjacent pair of members of a discovered chain. They
all hold exactly when the flags alternate along the chain. For two members this says that one of the
branches was taken; among four or more, it fails whenever at most one was; and when none was, every
assertion is false. -/
theorem Method.assertions_alternate (s : Scanner) (index : ℕ) (m : Method)
    (tree : m.body.TreeShaped) (hlines : m.body.conditionalLines.Nodup) :
    ∃ after visits, m.discover s index = .ok ({ m with body := after }, visits) ∧
      ∀ style declaration placed outcome,
        after.instrument style ((Registry.empty.add visits).forMethod index) declaration =
          .ok (placed, outcome) →
        ∀ c ∈ (Registry.empty.add visits).forMethod index, ∀ value : String → Bool,
          let hold := ∀ e ∈ style.checks after placed c, e.eval value = some true
          let fired := (style.fired value c).length
          (style.checks after placed c).Perm (c.pairs.map fun p =>
            .xor (.name (style.flagName p.1)) (.name (style.flagName p.2))) ∧
          (hold ↔ ∀ i (h : i + 1 < c.members.length),
            value (style.flagName c.members[i + 1]) = !value (style.flagName c.members[i])) ∧
          (c.members.length = 2 → (hold ↔ fired = 1)) ∧
          (4 ≤ c.members.length → fired ≤ 1 → ¬ hold) ∧
          (fired = 0 → ∀ e ∈ style.checks after placed c, e.eval value = some false) := by
  obtain ⟨after, visits, hdiscover, hf, -, hp, hwoven⟩ := m.exists_woven s index tree
  refine ⟨after, visits, hdiscover, fun style declaration placed outcome h c hc value => ?_⟩
  obtain ⟨-, hw⟩ := hwoven h
  have hperm := hw.perm_checks hp (hf.conditionalLines_eq ▸ hlines) hc
  have hmem : ∀ e, e ∈ style.checks after placed c ↔ ∃ p ∈ c.pairs, style.apart p = e := fun e =>
    hperm.mem_iff.trans List.mem_map
  have hhold : (∀ e ∈ style.checks after placed c, e.eval value = some true) ↔
      ∀ i (h : i + 1 < c.members.length),
        value (style.flagName c.members[i + 1]) = !value (style.flagName c.members[i]) := by
    rw [← FlagStyle.forall_apart_iff]
    exact ⟨fun h p hpair => h _ ((hmem _).2 ⟨p, hpair, rfl⟩), fun h e he => by
      obtain ⟨p, hpair, rfl⟩ := (hmem e).1 he
      exact h p hpair⟩
  refine ⟨hperm, hhold, fun htwo => hhold.trans (FlagStyle.length_fired_of_two htwo),
    fun hfour hfired h => ?_, fun hfired e he => ?_⟩
  · have htwo := FlagStyle.two_le_length_fired hfour (hhold.1 h)
    omega
  · obtain ⟨p, hpair, rfl⟩ := (hmem e).1 he
    exact FlagStyle.eval_apart_of_fired_eq_nil hfired hpair

/-! ### Four members -/

namespace Method

/-- A method with four adjacent conditionals and an assertion of its own. -/
def fourfold : Method where
  owner := "A"
  name := "f"
  span := .zero
  bodyRange := .zero
  indent := ""
  body := ⟨#[
    ⟨[.assertion (.xor (.name "branch3") (.name "branch4")),
      .conditional ⟨3, .source "a", some 1, none, .zero⟩,
      .conditional ⟨4, .source "b", some 2, none, .zero⟩,
      .conditional ⟨5, .source "c", some 3, none, .zero⟩,
      .conditional ⟨6, .source "d", some 4, none, .zero⟩], .zero, true, false, false⟩,
    .synthetic, .synthetic, .synthetic, .synthetic]⟩

/-- The chain of its conditionals. -/
def fourfoldChain : Chain := ⟨Body.root, [⟨3, 1⟩, ⟨4, 2⟩, ⟨5, 3⟩, ⟨6, 4⟩], by decide⟩

/-- The visits that discovery makes. -/
def fourfoldVisits : List Visit :=
  [⟨0, 5, [⟨0, fourfoldChain, ⟨"A", "f", 3, [3, 4, 5, 6], false⟩⟩]⟩, ⟨1, 0, []⟩, ⟨2, 0, []⟩,
    ⟨3, 0, []⟩, ⟨4, 0, []⟩]

theorem discover_fourfold : fourfold.discover .standard 0 = .ok (fourfold, fourfoldVisits) := by
  decide +kernel

/-- Its body with the chain instrumented. -/
def fourfoldPlaced : Body :=
  ((fourfold.body.instrument .standard [fourfoldChain] "A.f").toOption.map Prod.fst).getD ⟨#[]⟩

/-- Only the third branch was taken, and the assertions do not hold, although the branches excluded
one another. -/
theorem assertions_alternate_fourfold : fourfold.body.TreeShaped ∧
    fourfold.body.conditionalLines = [3, 4, 5, 6] ∧
    (FlagStyle.standard.checks fourfold.body fourfoldPlaced fourfoldChain).length = 3 ∧
    (FlagStyle.standard.fired (fun flag => flag == "branch5") fourfoldChain).length = 1 ∧
    ¬ ∀ e ∈ FlagStyle.standard.checks fourfold.body fourfoldPlaced fourfoldChain,
      e.eval (fun flag => flag == "branch5") = some true := by
  have htree : fourfold.body.TreeShaped := ⟨by decide, by decide, by decide, by decide⟩
  obtain ⟨after, visits, hdiscover, h⟩ :=
    assertions_alternate .standard 0 fourfold htree (by decide)
  have hchains : (Registry.empty.add fourfoldVisits).forMethod 0 = [fourfoldChain] := rfl
  have hplaced : fourfold.body.instrument .standard [fourfoldChain] "A.f" =
      .ok (fourfoldPlaced, ⟨1, 4, 3⟩) := by decide +kernel
  rw [discover_fourfold, Except.ok.injEq, Prod.mk.injEq] at hdiscover
  obtain ⟨hbody, rfl⟩ := hdiscover
  obtain rfl : fourfold.body = after := congrArg Method.body hbody
  rw [hchains] at h
  obtain ⟨hperm, -, -, hfour, -⟩ := h .standard "A.f" fourfoldPlaced ⟨1, 4, 3⟩ hplaced
    fourfoldChain (by simp) (fun flag => flag == "branch5")
  exact ⟨htree, by decide, by rw [hperm.length_eq]; rfl, by decide,
    hfour (by decide) (by decide)⟩

end Method

end BranchExclusion
