import BranchExclusion.Proofs.Chain.Scan

/-!
# Going down a ladder

The end of a ladder is looked for from rung to rung, by block numbers only. In a tree the search
comes to an end, and there is one way down.

* `Body.Single`, `Body.Descent`: the rungs on the way down, and the block where it breaks off;
* `Descent.unique`: there is only one way down;
* `TreeShaped.ladderEnd_eq_some`, `TreeShaped.ladderEnd_eq_none`: the search finds the last rung of
  a way down that does not break off;
* `Filled.descent`: filling in branches keeps the way, and changes its rungs in their branches only;
* `Descent.complete`: below a normal block every rung has its branch;
* `TreeShaped.ladder_descended`: the ladders of a tree, before and after a scan.
-/

namespace BranchExclusion

/-- `d` is `c` with a true branch, which is the one of `c` if `c` has one. -/
def Conditional.Completed (c d : Conditional) : Prop :=
  ∃ x, d = { c with thenBranch := some x } ∧ ∀ y, c.thenBranch = some y → y = x

theorem Conditional.Completed.of_filled {New : BlockId → Prop} {c d : Conditional}
    (h : Statement.Filled New (.conditional c) (.conditional d)) (hd : d.thenBranch ≠ none) :
    c.Completed d := by
  obtain ⟨x, hx⟩ := Option.ne_none_iff_exists'.1 hd
  cases h with
  | same =>
    refine ⟨x, by rw [← hx], fun y hy => ?_⟩
    exact Option.some.inj (hy.symm.trans hx)
  | branch _ t hnone _ =>
    refine ⟨t, rfl, fun y hy => ?_⟩
    rw [hnone] at hy
    cases hy

namespace Body

variable {body after : Body} {id next a p : BlockId} {c d t : Conditional}
  {rungs : List (BlockId × Conditional)} {bottom : Option BlockId} {n : ℕ}

/-! ### Rungs -/

/-- Block `id` holds the conditional `c` and nothing else but comments. -/
def Single (body : Body) (id : BlockId) (c : Conditional) : Prop :=
  ∃ b, body.block id = .ok b ∧ b.significant = [.conditional c]

theorem single_iff {b : Block} (hb : body.block id = .ok b) :
    body.Single id c ↔ b.singleConditional? = some c := by
  rw [Block.singleConditional?_eq_some]
  refine ⟨?_, fun h => ⟨b, hb, h⟩⟩
  rintro ⟨b', hb', h⟩
  rwa [block_unique hb hb']

theorem Single.unique (h : body.Single id c) (h' : body.Single id d) : c = d := by
  obtain ⟨b, hb, h⟩ := h
  rw [single_iff hb, Block.singleConditional?_eq_some, h] at h'
  cases h'
  rfl

/-- A rung keeps its alternative when branches are filled in. -/
theorem Filled.single (h : body.Filled after) (hc : body.Single id c) :
    ∃ d, after.Single id d ∧ d.elseBranch = c.elseBranch ∧
      Statement.Filled (fun x => body.size ≤ x ∧ x < after.size) (.conditional c)
        (.conditional d) := by
  have ⟨b, hb, _⟩ := hc
  obtain ⟨b', hb', hf⟩ := h.old hb
  obtain ⟨d, hd, hs⟩ := hf.singleConditional?_eq_some ((single_iff hb).1 hc)
  obtain ⟨_, heq, helse⟩ := hs.conditional_left
  cases heq
  exact ⟨d, (single_iff hb').2 hd, helse, hs⟩

theorem Filled.not_single (h : body.Filled after) {b : Block} (hb : body.block id = .ok b)
    (hno : ∀ c, ¬ body.Single id c) : ∀ c, ¬ after.Single id c := by
  obtain ⟨b', hb', hf⟩ := h.old hb
  have hnone : b.singleConditional? = none :=
    Option.eq_none_iff_forall_ne_some.2 fun c hc => hno c ((single_iff hb).2 hc)
  intro c hc
  rw [single_iff hb', hf.singleConditional?_eq_none hnone] at hc
  cases hc

theorem Single.complete (h : body.Single id c) (hcomplete : body.Complete id) :
    c.thenBranch ≠ none := by
  have ⟨b, hb, _⟩ := h
  have hmem := Block.mem_of_singleConditional? ((single_iff hb).1 h)
  exact fun hnone => hcomplete.not_lacksBranch hb ⟨c, hmem, hnone⟩

theorem Single.isRung (h : body.Single id c) (he : c.elseBranch = some next)
    (h' : body.Single next d) : body.IsRung id next := by
  have ⟨b, hb, _⟩ := h
  have ⟨b', hb', _⟩ := h'
  have hmem := Block.mem_of_singleConditional? ((single_iff hb).1 h)
  exact ⟨b, c, b', d, hb, hmem, he, hb', (single_iff hb').1 h'⟩

/-! ### The way down -/

/-- The way down the ladder from block `id` passes these blocks with their single conditionals, each
block the alternative of the conditional before it. It ends at a conditional without an alternative,
or it breaks off at the block `bottom`, which is of another shape. -/
inductive Descent (body : Body) :
    BlockId → List (BlockId × Conditional) → Option BlockId → Prop
  | last {id : BlockId} {c : Conditional} : body.Single id c → c.elseBranch = none →
      Descent body id [(id, c)] none
  | rung {id next : BlockId} {c : Conditional} {rungs : List (BlockId × Conditional)}
      {bottom : Option BlockId} : body.Single id c → c.elseBranch = some next →
      Descent body next rungs bottom → Descent body id ((id, c) :: rungs) bottom
  | other {id : BlockId} {b : Block} : body.block id = .ok b → (∀ c, ¬ body.Single id c) →
      Descent body id [] (some id)

theorem Descent.exists_single (h : body.Descent id rungs bottom) (hne : rungs ≠ []) :
    ∃ c, body.Single id c := by
  cases h with
  | last hc _ => exact ⟨_, hc⟩
  | rung hc _ _ => exact ⟨_, hc⟩
  | other => exact absurd rfl hne

theorem Descent.unique {rungs' : List (BlockId × Conditional)} {bottom' : Option BlockId}
    (h : body.Descent id rungs bottom) (h' : body.Descent id rungs' bottom') :
    rungs = rungs' ∧ bottom = bottom' := by
  induction h generalizing rungs' bottom' with
  | last hc he =>
    cases h' with
    | last hc' _ => exact ⟨by rw [hc.unique hc'], rfl⟩
    | rung hc' he' _ =>
      obtain rfl := hc.unique hc'
      cases he.symm.trans he'
    | other _ hno => exact absurd hc (hno _)
  | rung hc he _ ih =>
    cases h' with
    | last hc' he' =>
      obtain rfl := hc.unique hc'
      cases he.symm.trans he'
    | rung hc' he' hrest =>
      obtain rfl := hc.unique hc'
      obtain rfl := Option.some.inj (he.symm.trans he')
      obtain ⟨rfl, rfl⟩ := ih hrest
      exact ⟨rfl, rfl⟩
    | other _ hno => exact absurd hc (hno _)
  | other _ hno =>
    cases h' with
    | last hc' _ => exact absurd hc' (hno _)
    | rung hc' _ _ => exact absurd hc' (hno _)
    | other => exact ⟨rfl, rfl⟩

/-- Filling in branches keeps the way down, and changes its rungs in their branches only. -/
theorem Filled.descent (h : body.Filled after) (hd : body.Descent id rungs bottom) :
    ∃ new, after.Descent id new bottom ∧ List.Forall₂ (fun r r' => r'.1 = r.1 ∧
      Statement.Filled (fun x => body.size ≤ x ∧ x < after.size) (.conditional r.2)
        (.conditional r'.2)) rungs new := by
  induction hd with
  | last hc he =>
    obtain ⟨d, hd, helse, hs⟩ := h.single hc
    exact ⟨_, .last hd (helse.trans he), .cons ⟨rfl, hs⟩ .nil⟩
  | rung hc he _ ih =>
    obtain ⟨d, hd, helse, hs⟩ := h.single hc
    obtain ⟨new, hrest, hall⟩ := ih
    exact ⟨_, .rung hd (helse.trans he) hrest, .cons ⟨rfl, hs⟩ hall⟩
  | other hb hno =>
    obtain ⟨b', hb', -⟩ := h.old hb
    exact ⟨[], .other hb' (h.not_single hb hno), .nil⟩

/-- Below a normal block every rung has its branch. -/
theorem Descent.complete (hd : body.Descent id rungs bottom) (hn : rungs ≠ [] → body.Normal id) :
    ∀ r ∈ rungs, r.2.thenBranch ≠ none := by
  induction hd with
  | @last id c hc he =>
    have hnormal := hn (List.cons_ne_nil _ _)
    exact List.forall_mem_singleton.2 (hc.complete (hnormal id .refl))
  | @rung id next c rungs bottom hc he hrest ih =>
    have hnormal := hn (List.cons_ne_nil _ _)
    refine List.forall_mem_cons.2 ⟨hc.complete (hnormal id .refl), ih fun hne r hr => ?_⟩
    obtain ⟨d, hd⟩ := hrest.exists_single hne
    exact hnormal r (.head (hc.isRung he hd) hr)
  | other => exact fun r hr => absurd hr List.not_mem_nil

/-! ### The search -/

theorem Ladder.exists_descent (h : body.Ladder id t) :
    ∃ rungs x, body.Descent id (rungs ++ [(x, t)]) none := by
  induction h with
  | @last id b t hb hc he => exact ⟨[], id, .last ((single_iff hb).2 hc) he⟩
  | @step id next b c t hb hc he _ ih =>
    obtain ⟨rungs, x, hd⟩ := ih
    exact ⟨(id, c) :: rungs, x, .rung ((single_iff hb).2 hc) he hd⟩

theorem exists_descent_of_ladderEndWithin (h : body.ladderEndWithin n id = .ok none) :
    ∃ rungs x, body.Descent id rungs (some x) := by
  induction n generalizing id with
  | zero => cases h
  | succ n ih =>
    obtain ⟨b, hb, h⟩ := bind_eq_ok.1 h
    split at h
    · next hnone =>
      refine ⟨[], id, .other hb fun c hc => ?_⟩
      rw [single_iff hb, hnone] at hc
      cases hc
    · next c hc =>
      split at h
      · cases h
      · next next he =>
        obtain ⟨rungs, x, hd⟩ := ih h
        exact ⟨(id, c) :: rungs, x, .rung ((single_iff hb).2 hc) he hd⟩

namespace TreeShaped

variable (tree : body.TreeShaped)
include tree

/-- The search from a block of a tree comes to an end. -/
theorem exists_ladderEnd (ha : body.Reaches root a) : ∃ r, body.ladderEnd a = .ok r :=
  (tree.nests_root.of_reaches ha).exists_ladderEndWithin

/-- There is one way down from every block of a tree. -/
theorem existsUnique_descent (ha : body.Reaches root a) :
    ∃! way : List (BlockId × Conditional) × Option BlockId, body.Descent a way.1 way.2 := by
  have hway : ∃ rungs bottom, body.Descent a rungs bottom := by
    obtain ⟨r, hr⟩ := tree.exists_ladderEnd ha
    cases r with
    | none =>
      obtain ⟨rungs, x, hd⟩ := exists_descent_of_ladderEndWithin hr
      exact ⟨rungs, some x, hd⟩
    | some t =>
      obtain ⟨rungs, x, hd⟩ := (ladder_of_ladderEndWithin hr).exists_descent
      exact ⟨_, none, hd⟩
  obtain ⟨rungs, bottom, hd⟩ := hway
  refine ⟨(rungs, bottom), hd, fun way hway => ?_⟩
  obtain ⟨hrungs, hbottom⟩ := hway.unique hd
  exact Prod.ext hrungs hbottom

/-- The search finds the last rung of a way down that does not break off. -/
theorem ladderEnd_eq_some (ha : body.Reaches root a) : body.ladderEnd a = .ok (some t) ↔
    ∃ rungs x, body.Descent a (rungs ++ [(x, t)]) none := by
  refine ⟨fun h => (ladder_of_ladderEndWithin h).exists_descent, ?_⟩
  rintro ⟨rungs, x, hd⟩
  obtain ⟨r, hr⟩ := tree.exists_ladderEnd ha
  cases r with
  | none =>
    obtain ⟨rungs', y, hd'⟩ := exists_descent_of_ladderEndWithin hr
    cases (hd.unique hd').2
  | some u =>
    obtain ⟨rungs', y, hd'⟩ := (ladder_of_ladderEndWithin hr).exists_descent
    obtain ⟨-, hlast⟩ := List.append_inj' (hd.unique hd').1 rfl
    cases hlast
    exact hr

theorem ladderEnd_eq_none (ha : body.Reaches root a) :
    body.ladderEnd a = .ok none ↔ ∃ rungs x, body.Descent a rungs (some x) := by
  refine ⟨exists_descent_of_ladderEndWithin, ?_⟩
  rintro ⟨rungs, x, hd⟩
  obtain ⟨r, hr⟩ := tree.exists_ladderEnd ha
  cases r with
  | none => exact hr
  | some t =>
    obtain ⟨rungs', y, hd'⟩ := (ladder_of_ladderEndWithin hr).exists_descent
    cases (hd.unique hd').2

end TreeShaped

/-! ### Ladders of a scanned block -/

/-- A ladder that hangs off a normal block is normal. -/
theorem Descent.normal (hd : body.Descent a rungs bottom) (tree : body.TreeShaped)
    (h : body.Filled after) (hn : after.Normal p) {b : Block} (hb : body.block p = .ok b)
    (hc : .conditional c ∈ b.statements) (he : c.elseBranch = some a) (hne : rungs ≠ []) :
    after.Normal a := by
  intro r hr
  refine hn r (.head ?_ hr)
  obtain ⟨d, hd⟩ := hd.exists_single hne
  have ⟨b', hb', _⟩ := hd
  rw [h.isRung_eq tree]
  exact ⟨b, c, b', d, hb, hc, he, hb', (single_iff hb').1 hd⟩

/-- The way down below a block that was made normal: the same blocks, with completed rungs. -/
theorem Descent.completed (hd : body.Descent id rungs bottom) (h : body.Filled after)
    (hn : rungs ≠ [] → after.Normal id) : ∃ new, after.Descent id new bottom ∧
      List.Forall₂ (fun r r' => r'.1 = r.1 ∧ r.2.Completed r'.2) rungs new := by
  obtain ⟨new, hnew, hall⟩ := h.descent hd
  have hbranch : ∀ r ∈ new, r.2.thenBranch ≠ none :=
    hnew.complete fun hne => hn fun hnil => hne (List.forall₂_nil_left_iff.1 (hnil ▸ hall))
  refine ⟨new, hnew, forall₂_imp_mem hall fun r _ r' hr' hf => ⟨hf.1, ?_⟩⟩
  exact .of_filled hf.2 (hbranch r' hr')

/-- A scan goes on behind an alternative with the last rung of its ladder, if that has a branch. -/
theorem resume_of_completed (h : body.ladderEnd a = .ok (some d)) (hd : t.Completed d) :
    ∃ x, d.thenBranch = some x ∧ Scanner.resume body a = .ok [⟨t.line, x⟩] := by
  obtain ⟨x, rfl, -⟩ := hd
  refine ⟨x, rfl, ?_⟩
  rw [Scanner.resume, h]
  rfl

/-- **Every ladder of a tree has one way down, and the search finds the end of it.** From any block
the search comes to an end. It gives the last rung when the way down does not break off, and nothing
when it does. A scan of the block that holds the ladder completes all its rungs, so that it goes on
behind the alternative with the last rung and never drops it. -/
theorem TreeShaped.ladder_descended (tree : body.TreeShaped) :
    (∀ a, body.Reaches root a →
      (∃ r, body.ladderEnd a = .ok r) ∧
      (∃! way : List (BlockId × Conditional) × Option BlockId, body.Descent a way.1 way.2) ∧
      (∀ t, body.ladderEnd a = .ok (some t) ↔
        ∃ rungs x, body.Descent a (rungs ++ [(x, t)]) none) ∧
      (body.ladderEnd a = .ok none ↔ ∃ rungs x, body.Descent a rungs (some x))) ∧
    ∀ (s : Scanner) (p : BlockId) (b : Block) (c : Conditional) (a : BlockId),
      body.Reaches root p → body.block p = .ok b → .conditional c ∈ b.statements →
      c.elseBranch = some a →
        ∃ after chains, body.normalize p = .ok after ∧ s.scan body p = .ok (after, chains) ∧
          (∀ rungs bottom, body.Descent a rungs bottom → ∃ new, after.Descent a new bottom ∧
            List.Forall₂ (fun r r' => r'.1 = r.1 ∧ r.2.Completed r'.2) rungs new) ∧
          (∀ t, body.ladderEnd a = .ok (some t) → ∃ u x, t.Completed u ∧
            u.thenBranch = some x ∧ after.ladderEnd a = .ok (some u) ∧
              Scanner.resume after a = .ok [⟨t.line, x⟩]) ∧
          (body.ladderEnd a = .ok none → Scanner.resume after a = .ok []) := by
  refine ⟨fun a ha => ⟨tree.exists_ladderEnd ha, tree.existsUnique_descent ha,
    fun t => tree.ladderEnd_eq_some ha, tree.ladderEnd_eq_none ha⟩, fun s p b c a hp hb hc he => ?_⟩
  have hchild : body.IsChild p a := ⟨b, hb, List.mem_flatMap.2 ⟨_, hc, by simp [he]⟩⟩
  have ha : body.Reaches root a := .child hp hchild
  obtain ⟨after, chains, hscan, hf, htree, hn, -⟩ :=
    Scanner.exists_scan (s := s) tree (tree.nests_root.of_reaches hp) (Nat.le_refl _)
  have hafter : after.Reaches root a := hf.reaches ha
  have hcompleted : ∀ rungs bottom, body.Descent a rungs bottom → ∃ new,
      after.Descent a new bottom ∧
        List.Forall₂ (fun r r' => r'.1 = r.1 ∧ r.2.Completed r'.2) rungs new :=
    fun rungs bottom hd => hd.completed hf (hd.normal tree hf hn hb hc he)
  refine ⟨after, chains, (Scanner.scan_eq_ok.1 hscan).1, hscan, hcompleted, fun t ht => ?_,
    fun hnone => ?_⟩
  · obtain ⟨rungs, y, hd⟩ := (tree.ladderEnd_eq_some ha).1 ht
    obtain ⟨new, hnew, hall⟩ := hcompleted _ _ hd
    obtain ⟨front, tail, -, htail, rfl⟩ := forall₂_append_left hall
    obtain ⟨⟨z, u⟩, _, ⟨-, hu⟩, hnil, rfl⟩ := List.forall₂_cons_left_iff.1 htail
    obtain rfl := List.forall₂_nil_left_iff.1 hnil
    have hend := (htree.ladderEnd_eq_some hafter).2 ⟨front, z, hnew⟩
    obtain ⟨x, hx, hresume⟩ := resume_of_completed hend hu
    exact ⟨u, x, hu, hx, hend, hresume⟩
  · obtain ⟨rungs, y, hd⟩ := (tree.ladderEnd_eq_none ha).1 hnone
    obtain ⟨new, hnew, -⟩ := hcompleted _ _ hd
    have hend := (htree.ladderEnd_eq_none hafter).2 ⟨new, y, hnew⟩
    rw [Scanner.resume, hend]
    rfl

/-! ### A ladder without branches, and one that ends in a plain `else` -/

/-- A ladder of three conditionals that all lack their branches, one rung behind a comment, and a
ladder that ends in a plain `else`. -/
def twoLadders : Body := ⟨#[
  ⟨[.conditional ⟨1, .source "a", none, some 1, .zero⟩,
    .conditional ⟨5, .source "d", some 3, some 4, .zero⟩], .zero, true, false, false⟩,
  ⟨[.comment "// b" .zero, .conditional ⟨2, .source "b", none, some 2, .zero⟩],
    .zero, true, false, false⟩,
  ⟨[.conditional ⟨3, .source "c", none, none, .zero⟩], .zero, false, false, false⟩,
  .synthetic,
  ⟨[.conditional ⟨6, .source "e", none, some 5, .zero⟩], .zero, false, false, false⟩,
  .synthetic]⟩

theorem treeShaped_twoLadders : twoLadders.TreeShaped :=
  ⟨by decide, by decide, by decide, by decide⟩

/-- The first ladder has one way down to the conditional of line 3, with which a scan goes on. The
second one breaks off. -/
theorem ladder_descended_twice : twoLadders.TreeShaped ∧
    (∃! way : List (BlockId × Conditional) × Option BlockId, twoLadders.Descent 1 way.1 way.2) ∧
    (∃ rungs x, twoLadders.Descent 1
      (rungs ++ [(x, ⟨3, .source "c", none, none, .zero⟩)]) none) ∧
    (∃ rungs x, twoLadders.Descent 4 rungs (some x)) ∧
    ∃ after chains x, Scanner.standard.scan twoLadders root = .ok (after, chains) ∧
      Scanner.resume after 1 = .ok [⟨3, x⟩] := by
  obtain ⟨hdown, hscan⟩ := treeShaped_twoLadders.ladder_descended
  have hfirst : twoLadders.Reaches root 1 := .child .self ⟨_, rfl, by decide⟩
  have hsecond : twoLadders.Reaches root 4 := .child .self ⟨_, rfl, by decide⟩
  obtain ⟨-, hway, hend, -⟩ := hdown 1 hfirst
  obtain ⟨-, -, -, hnone⟩ := hdown 4 hsecond
  obtain ⟨after, chains, -, hs, -, hresume, -⟩ :=
    hscan .standard root _ _ 1 .self rfl List.mem_cons_self rfl
  obtain ⟨u, x, -, -, -, hx⟩ := hresume _ rfl
  exact ⟨treeShaped_twoLadders, hway, (hend _).1 rfl, hnone.1 rfl, after, chains, x, hs, hx⟩

end Body

end BranchExclusion
