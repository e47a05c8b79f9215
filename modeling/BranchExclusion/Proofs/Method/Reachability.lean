import BranchExclusion.Proofs.Method.Blocks

/-!
# Statements that control cannot get past

* `Body.Stops`: control does not get past a statement;
* `Body.Live`: nothing but comments follows such a statement in its block;
* `Block.pairwise_weave`: when a block stays so under insertions;
* `Method.live_iff`: when an instrumented body is still live. The assertions go before a trailing
  exit, but behind a trailing block or conditional that control does not get past either.
-/

namespace BranchExclusion

open Statement

/-- Control does not get past the statement: it is an exit, a block with such a statement, or a
conditional with such a statement in both branches. -/
inductive Body.Stops (body : Body) : Statement → Prop
  | exit (kind : ExitKind) (text : Verbatim) : Stops body (.exit kind text)
  | block {id : BlockId} {b : Block} {t : Statement} : body.block id = .ok b → t ∈ b.statements →
      Stops body t → Stops body (.block id)
  | conditional {c : Conditional} {x y : BlockId} {b b' : Block} {t t' : Statement} :
      c.thenBranch = some x → c.elseBranch = some y → body.block x = .ok b → t ∈ b.statements →
      Stops body t → body.block y = .ok b' → t' ∈ b'.statements → Stops body t' →
      Stops body (.conditional c)

/-- In every block, only comments follow a statement that control does not get past. -/
def Body.Live (body : Body) : Prop := ∀ id b, body.block id = .ok b →
  b.statements.Pairwise fun s t => body.Stops s → t.isComment = true

namespace Body

variable {body after placed : Body} {t u : Statement} {id : BlockId} {b : Block}

theorem Stops.isComment_eq_false (h : body.Stops t) : t.isComment = false := by
  cases h <;> rfl

theorem not_stops_conditional {c : Conditional} (hc : c.elseBranch = none) :
    ¬ body.Stops (.conditional c) := by
  intro h
  cases h with
  | conditional _ hy =>
    rw [hc] at hy
    cases hy

/-- Filling in branches makes no statement stop: a new branch is empty. -/
theorem Filled.stops {New : BlockId → Prop} (hf : body.Filled after)
    (hnew : ∀ x, New x → body.size ≤ x) (hut : Statement.Filled New u t) (h : after.Stops t) :
    body.Stops u := by
  -- what stands in a block of the new body is filled in from what stood there before
  have hinner : ∀ {x b' t'}, after.block x = .ok b' → t' ∈ b'.statements →
      ∃ b u', body.block x = .ok b ∧ u' ∈ b.statements ∧
        Statement.Filled (fun y => body.size ≤ y ∧ y < after.size) u' t' := by
    intro x b' t' hb' ht'
    rcases hf.cases_block hb' with ⟨b, hb, hbf⟩ | ⟨-, rfl⟩
    · obtain ⟨u', hu', hut'⟩ := forall₂_exists_left hbf.1 ht'
      exact ⟨b, u', hb, hu', hut'⟩
    · cases ht'
  induction h generalizing New u with
  | exit kind v =>
    cases hut with
    | same => exact .exit kind v
  | block hb' ht' _ ih =>
    cases hut with
    | same =>
      obtain ⟨b, u', hb, hu', hut'⟩ := hinner hb' ht'
      exact .block hb hu' (ih (fun x hx => hx.1) hut')
  | conditional hx hy hbx htx _ hby hty _ ihx ihy =>
    cases hut with
    | same =>
      obtain ⟨b, u₁, hb, hu₁, hf₁⟩ := hinner hbx htx
      obtain ⟨b', u₂, hb', hu₂, hf₂⟩ := hinner hby hty
      exact .conditional hx hy hb hu₁ (ihx (fun x hx => hx.1) hf₁) hb' hu₂
        (ihy (fun x hx => hx.1) hf₂)
    | branch d x hd hx' =>
      cases hx
      rw [hf.new (hnew _ hx') hbx] at htx
      cases htx

theorem Filled.live (hf : body.Filled after) (h : body.Live) : after.Live := by
  intro id b' hb'
  rcases hf.cases_block hb' with ⟨b, hb, hbf⟩ | ⟨-, rfl⟩
  · refine pairwise_of_forall₂ hbf.1 (h id b hb) fun s _ u _ s' u' hs hu hsu hstop => ?_
    rw [hu.isComment_eq]
    exact hsu (hf.stops (fun x hx => hx.1) hs hstop)
  · exact .nil

/-- Statements stop in the new body as before, when nothing that was added stops. -/
theorem Woven.stops_iff {d a e : BlockId → List Statement} (hw : body.Woven placed d a e)
    (hnew : ∀ id t, t ∈ d id ∨ t ∈ a id ∨ t ∈ e id → ¬ placed.Stops t) :
    placed.Stops t ↔ body.Stops t := by
  have hinner : ∀ {x b' t'}, placed.block x = .ok b' → t' ∈ b'.statements → placed.Stops t' →
      ∃ b, body.block x = .ok b ∧ t' ∈ b.statements := by
    intro x b' t' hb' ht' hstop
    obtain ⟨b, hb, ht' | ht'⟩ := hw.exists_mem hb' ht'
    · exact ⟨b, hb, ht'⟩
    · exact absurd hstop (hnew x t' ht')
  constructor
  · intro h
    induction h with
    | exit kind v => exact .exit kind v
    | block hb' ht' hstop ih =>
      obtain ⟨b, hb, ht⟩ := hinner hb' ht' hstop
      exact .block hb ht ih
    | conditional hx hy hbx htx hstopx hby hty hstopy ihx ihy =>
      obtain ⟨b, hb, ht⟩ := hinner hbx htx hstopx
      obtain ⟨b', hb', ht'⟩ := hinner hby hty hstopy
      exact .conditional hx hy hb ht ihx hb' ht' ihy
  · intro h
    induction h with
    | exit kind v => exact .exit kind v
    | block hb ht _ ih => exact .block (hw.block_eq hb) (Block.mem_weave.2 (.inl ht)) ih
    | conditional hx hy hbx htx _ hby hty _ ihx ihy =>
      exact .conditional hx hy (hw.block_eq hbx) (Block.mem_weave.2 (.inl htx)) ihx
        (hw.block_eq hby) (Block.mem_weave.2 (.inl hty)) ihy

/-- A body with statements woven in is live when each block is, by what stopped before. -/
theorem Woven.live_iff_pairwise {d a e : BlockId → List Statement} (hw : body.Woven placed d a e)
    (hnew : ∀ id t, t ∈ d id ∨ t ∈ a id ∨ t ∈ e id → ¬ placed.Stops t) :
    placed.Live ↔ ∀ id b, body.block id = .ok b →
      (b.weave (d id) (a id) (e id)).statements.Pairwise fun s t =>
        body.Stops s → t.isComment = true := by
  unfold Live
  simp only [hw.stops_iff hnew]
  constructor
  · exact fun hl id b hb => hl id _ (hw.block_eq hb)
  · intro hl id b' hb'
    obtain ⟨b, hb, rfl⟩ := hw.exists_weave hb'
    exact hl id b hb

end Body

/-! ### Insertions into one block -/

namespace Block

variable {b : Block} {d a e : List Statement} {S : Statement → Prop}

/-- Insertions leave a block live exactly when nothing before them stops. -/
theorem pairwise_weave (hb : b.statements.Pairwise fun s t => S s → t.isComment = true)
    (hS : ∀ t ∈ d ++ a ++ e, ¬ S t ∧ t.isComment = false) :
    ((b.weave d a e).statements.Pairwise fun s t => S s → t.isComment = true) ↔
      (d ++ a ≠ [] → ∀ s ∈ b.statements.take b.front, ¬ S s) ∧
        (e ≠ [] → ∀ s ∈ b.statements.take (max b.front b.assertionIndex), ¬ S s) := by
  have hk := take_drop_take (l := b.statements) (Nat.le_max_left b.front b.assertionIndex)
  have hw : (b.weave d a e).statements = b.statements.take b.front ++ ((d ++ a) ++
      ((b.statements.take (max b.front b.assertionIndex)).drop b.front ++
        (e ++ b.statements.drop (max b.front b.assertionIndex)))) := by
    simp [weave]
  have hb' : b.statements = b.statements.take b.front ++
      ((b.statements.take (max b.front b.assertionIndex)).drop b.front ++
        b.statements.drop (max b.front b.assertionIndex)) := by
    rw [← List.append_assoc, hk, List.take_append_drop]
  -- the block is `X ++ Y ++ Z`, with the insertions behind `X` and behind `Y`
  rw [hw]
  rw [hb'] at hb
  conv_rhs => rw [← hk]
  generalize b.statements.take b.front = X at hb ⊢
  generalize (b.statements.take (max b.front b.assertionIndex)).drop b.front = Y at hb ⊢
  generalize b.statements.drop (max b.front b.assertionIndex) = Z at hb ⊢
  have hD : ∀ t ∈ d ++ a, ¬ S t ∧ t.isComment = false := fun t ht =>
    hS t (List.mem_append_left _ ht)
  have hE : ∀ t ∈ e, ¬ S t ∧ t.isComment = false := fun t ht => hS t (List.mem_append_right _ ht)
  generalize d ++ a = D at hD ⊢
  simp only [List.pairwise_append] at hb ⊢
  obtain ⟨hX, ⟨hY, hZ, hYZ⟩, hXYZ⟩ := hb
  constructor
  · rintro ⟨-, ⟨-, ⟨-, -, hYE⟩, -⟩, hXD⟩
    refine ⟨fun hne s hs hstop => ?_, fun hne s hs hstop => ?_⟩
    · obtain ⟨t, ht⟩ := List.exists_mem_of_ne_nil _ hne
      have hc := hXD s hs t (List.mem_append_left _ ht) hstop
      rw [(hD t ht).2] at hc
      cases hc
    · obtain ⟨t, ht⟩ := List.exists_mem_of_ne_nil _ hne
      have hc : t.isComment = true := by
        rcases List.mem_append.1 hs with hs | hs
        · exact hXD s hs t (by simp [ht]) hstop
        · exact hYE s hs t (List.mem_append_left _ ht) hstop
      rw [(hE t ht).2] at hc
      cases hc
  · rintro ⟨hfront, hend⟩
    have hXE : ∀ s ∈ X ++ Y, ∀ t ∈ e, S s → t.isComment = true := fun s hs t ht hstop =>
      absurd hstop (hend (List.ne_nil_of_mem ht) s hs)
    refine ⟨hX, ⟨?_, ⟨hY, ⟨?_, hZ, fun s hs t _ hstop => absurd hstop (hE s hs).1⟩, ?_⟩,
      fun s hs t _ hstop => absurd hstop (hD s hs).1⟩, ?_⟩
    · exact List.pairwise_of_forall_mem_list fun s hs t _ hstop => absurd hstop (hD s hs).1
    · exact List.pairwise_of_forall_mem_list fun s hs t _ hstop => absurd hstop (hE s hs).1
    · intro s hs t ht
      rcases List.mem_append.1 ht with ht | ht
      · exact hXE s (List.mem_append_right _ hs) t ht
      · exact hYZ s hs t ht
    · intro s hs t ht
      rcases List.mem_append.1 ht with ht | ht
      · exact fun hstop => absurd hstop (hfront (List.ne_nil_of_mem ht) s hs)
      · rcases List.mem_append.1 ht with ht | ht
        · exact hXYZ s hs t (List.mem_append_left _ ht)
        · rcases List.mem_append.1 ht with ht | ht
          · exact hXE s (List.mem_append_left _ hs) t ht
          · exact hXYZ s hs t (List.mem_append_right _ ht)

variable (hb : b.statements.Pairwise fun s t => S s → t.isComment = true)
  (hS : ∀ t, S t → t.isComment = false)
include hb hS

/-- Nothing before the end of a home stops, unless the home ends with a statement that stops and is
no exit. -/
theorem end_iff (hl : 2 ≤ b.conditionals.length) :
    (∀ s ∈ b.statements.take (max b.front b.assertionIndex), ¬ S s) ↔
      ∀ i t, b.lastSignificant = some (i, t) → t.isExit = true ∨ ¬ S t := by
  obtain ⟨pre, s, post, hd, hs, hpost⟩ := exists_tail hl
  have hsplit : b.statements = (b.statements.take b.front ++ pre) ++ s :: post := by
    rw [List.append_assoc, ← hd, List.take_append_drop]
  have hlast := lastSignificant_eq_some.2 ⟨_, _, hsplit, rfl, hs, hpost⟩
  have hlen : (b.statements.take b.front ++ pre).length = b.front + pre.length := by
    rw [List.length_append, List.length_take, Nat.min_eq_left b.front_le_length]
  have hbefore : ∀ u ∈ b.statements.take b.front ++ pre, ¬ S u := by
    intro u hu hstop
    rw [hsplit, List.pairwise_append] at hb
    rw [hb.2.2 u hu s List.mem_cons_self hstop] at hs
    cases hs
  have hk := assertionIndex_eq hsplit hs hpost
  by_cases hexit : s.isExit = true
  · rw [if_pos hexit, hlen] at hk
    have hmax : max b.front b.assertionIndex = b.front + pre.length := by omega
    have htake : b.statements.take (b.front + pre.length) = b.statements.take b.front ++ pre := by
      conv_lhs => rw [hsplit, ← hlen, List.take_left]
    refine iff_of_true ?_ fun i t ht => ?_
    · rw [hmax, htake]
      exact hbefore
    · rw [hlast, Option.some.injEq, Prod.mk.injEq] at ht
      exact .inl (ht.2 ▸ hexit)
  · rw [if_neg hexit] at hk
    have hmax : max b.front b.assertionIndex = b.statements.length := by
      rw [hk, Nat.max_eq_right b.front_le_length]
    rw [hmax, List.take_length]
    constructor
    · intro h i t ht
      rw [hlast, Option.some.injEq, Prod.mk.injEq] at ht
      exact .inr (ht.2 ▸ h s (by rw [hsplit]; simp))
    · intro h u hu hstop
      have hs' := (h _ s hlast).resolve_left hexit
      rw [hsplit, List.mem_append, List.mem_cons] at hu
      rcases hu with hu | rfl | hu
      · exact hbefore u hu hstop
      · exact hs' hstop
      · have hc := hpost u hu
        rw [hS u hstop] at hc
        cases hc

omit hS in
/-- Nothing before the front of a home stops. -/
theorem not_stops_front (hl : 2 ≤ b.conditionals.length) :
    ∀ s ∈ b.statements.take b.front, ¬ S s := by
  intro u hu hstop
  obtain ⟨pre, s, post, hd, hs, -⟩ := exists_tail hl
  rw [← List.take_append_drop b.front b.statements, hd, List.pairwise_append] at hb
  rw [hb.2.2 u hu s (by simp) hstop] at hs
  cases hs

omit hb in
/-- Only the constructor call of a block can stop before the front. -/
theorem front_iff : (∀ s ∈ b.statements.take b.front, ¬ S s) ↔
    (b.prologue = true → ∀ t, b.significant.head? = some t → ¬ S t) := by
  rcases b.front_cases with ⟨hf, hnone⟩ | ⟨hp, pre, s, post, hsplit, hs, hpre, hf⟩
  · rw [hf]
    refine iff_of_true (by simp) fun hp t ht => ?_
    rw [hnone hp] at ht
    cases ht
  · have htake : b.statements.take b.front = pre ++ [s] := by
      rw [hf, hsplit, List.take_append, List.take_of_length_le (Nat.le_succ _)]
      simp
    rw [htake, head?_significant hsplit hs hpre]
    constructor
    · intro h _ t ht
      cases ht
      exact h s (by simp)
    · intro h u hu hstop
      rcases List.mem_append.1 hu with hu | hu
      · have hc := hpre u hu
        rw [hS u hstop] at hc
        cases hc
      · rw [List.mem_singleton.1 hu] at hstop
        exact h hp s rfl hstop

end Block

/-! ### Instrumented bodies -/

theorem Body.not_stops_of_inserted {body : Body} {style : FlagStyle} {chains : List Chain}
    {members : List Member} {id : BlockId} {t : Statement} (ht : t ∈ style.declarations chains id ∨
      t ∈ style.raises members id ∨ t ∈ style.exclusions chains id) :
    ¬ body.Stops t ∧ t.isComment = false := by
  rcases ht with ht | ht | ht
  · obtain ⟨c, -, ht⟩ := List.mem_flatMap.1 ht
    obtain ⟨m, -, rfl⟩ := List.mem_map.1 ht
    exact ⟨nofun, rfl⟩
  · obtain ⟨m, -, rfl⟩ := List.mem_map.1 ht
    exact ⟨nofun, rfl⟩
  · obtain ⟨c, -, ht⟩ := List.mem_flatMap.1 ht
    obtain ⟨p, -, rfl⟩ := List.mem_map.1 ht
    exact ⟨nofun, rfl⟩

theorem FlagStyle.exclusions_ne_nil {style : FlagStyle} {chains : List Chain} {c : Chain}
    (hc : c ∈ chains) : style.exclusions chains c.home ≠ [] := by
  have hpos : 0 < c.pairs.length := by
    have := c.two_le
    rw [c.length_pairs]
    omega
  obtain ⟨p, hp⟩ := List.exists_mem_of_length_pos hpos
  refine List.ne_nil_of_mem (a := style.exclusion p.1 p.2) (List.mem_flatMap.2 ⟨c, ?_, ?_⟩)
  · exact List.mem_filter.2 ⟨hc, by simp⟩
  · exact List.mem_map.2 ⟨p, hp, rfl⟩

/-- **When an instrumented body is live.** Let nothing but comments follow, in any block of the
method, a statement that control does not get past. This holds of the instrumented body too exactly
when every home that ends with such a statement ends with an exit, and no branch starts with a
constructor call that is such a statement. -/
theorem Method.live_iff (s : Scanner) (index : ℕ) (m : Method) (tree : m.body.TreeShaped)
    (hlive : m.body.Live) :
    ∃ after visits, m.discover s index = .ok ({ m with body := after }, visits) ∧
      ∀ style declaration placed outcome,
        let chains := (Registry.empty.add visits).forMethod index
        after.instrument style chains declaration = .ok (placed, outcome) →
        (placed.Live ↔
          (∀ c ∈ chains, ∀ b i t, after.block c.home = .ok b → b.lastSignificant = some (i, t) →
            t.isExit = true ∨ ¬ after.Stops t) ∧
          ∀ x ∈ chains.flatMap Chain.members, ∀ b, after.block x.thenBranch = .ok b →
            b.prologue = true → ∀ t, b.significant.head? = some t → ¬ after.Stops t) := by
  obtain ⟨after, visits, hdiscover, hf, htree, hp, hwoven⟩ := m.exists_woven s index tree
  refine ⟨after, visits, hdiscover, ?_⟩
  intro style declaration placed outcome chains h
  obtain ⟨-, hw⟩ := hwoven h
  have hafter := hf.live hlive
  have hcomment : ∀ t, after.Stops t → t.isComment = false := fun t => Body.Stops.isComment_eq_false
  have hinserted : ∀ id, ∀ t ∈ style.declarations chains id ++
      style.raises (chains.flatMap Chain.members) id ++ style.exclusions chains id,
      ¬ after.Stops t ∧ t.isComment = false := by
    intro id t ht
    rw [List.mem_append, List.mem_append, or_assoc] at ht
    exact Body.not_stops_of_inserted ht
  have hblock : ∀ {id b}, after.block id = .ok b → _ := fun {id b} hb =>
    Block.pairwise_weave (hafter id b hb) (hinserted id)
  have hhome : ∀ c ∈ chains, ∀ b, after.block c.home = .ok b → 2 ≤ b.conditionals.length := by
    intro c hc b hb
    obtain ⟨b', hb', hl⟩ := hp.home c hc
    exact Body.block_unique hb' hb ▸ hl
  rw [hw.live_iff_pairwise fun id t ht => (Body.not_stops_of_inserted ht).1]
  constructor
  · intro hl
    refine ⟨fun c hc b i t hb ht => ?_, fun x hx b hb => ?_⟩
    · have hend := ((hblock hb).1 (hl _ b hb)).2 (FlagStyle.exclusions_ne_nil hc)
      exact (Block.end_iff (hafter _ b hb) hcomment (hhome c hc b hb)).1 hend i t ht
    · have hne : style.declarations chains x.thenBranch ++
          style.raises (chains.flatMap Chain.members) x.thenBranch ≠ [] := by
        rw [FlagStyle.raises_eq_singleton hp.nodup hx]
        simp
      exact (Block.front_iff hcomment).1 (((hblock hb).1 (hl _ b hb)).1 hne)
  · rintro ⟨hends, hfronts⟩ id b hb
    refine (hblock hb).2 ⟨fun hne => ?_, fun hne => ?_⟩
    · by_cases hhere : ∃ c ∈ chains, c.home = id
      · obtain ⟨c, hc, rfl⟩ := hhere
        exact Block.not_stops_front (hafter _ b hb) (hhome c hc b hb)
      · -- no home, so the block is a branch
        rw [FlagStyle.declarations_eq_nil fun c hc heq => hhere ⟨c, hc, heq⟩,
          List.nil_append] at hne
        obtain ⟨t, ht⟩ := List.exists_mem_of_ne_nil _ hne
        obtain ⟨x, hmem, -⟩ := List.mem_map.1 ht
        obtain ⟨hx, hxid⟩ := List.mem_filter.1 hmem
        obtain rfl : x.thenBranch = id := by simpa using hxid
        exact (Block.front_iff hcomment).2 (hfronts x hx b hb)
    · by_cases hhere : ∃ c ∈ chains, c.home = id
      · obtain ⟨c, hc, rfl⟩ := hhere
        exact (Block.end_iff (hafter _ b hb) hcomment (hhome c hc b hb)).2 fun i t =>
          hends c hc b i t hb
      · exact absurd (FlagStyle.exclusions_eq_nil fun c hc heq => hhere ⟨c, hc, heq⟩) hne

/-! ### A method that stays live and one that does not -/

namespace Method

theorem live_sample : sample.body.Live := by
  intro id b hb
  rw [Body.block_eq_ok] at hb
  rcases id with _ | _ | id
  · cases hb
    exact .cons (fun _ _ h => nomatch h)
      (.cons (fun _ _ h => absurd h (Body.not_stops_conditional rfl))
        (.cons (fun _ _ h => absurd h (Body.not_stops_conditional rfl))
          (List.pairwise_singleton _ _)))
  · cases hb
    exact List.pairwise_singleton _ _
  · cases hb

/-- The assertion of the small method stands before its exit. -/
theorem live_iff_sample : sample.body.Live ∧ samplePlaced.Live := by
  obtain ⟨after, visits, hdiscover, h⟩ :=
    live_iff .standard 0 sample treeShaped_sample live_sample
  obtain ⟨rfl, hchains⟩ := eq_of_discover_sample hdiscover
  rw [hchains] at h
  refine ⟨live_sample, (h .standard "A.A" samplePlaced ⟨1, 2, 1⟩ instrument_sample).2 ⟨?_, ?_⟩⟩
  · intro c hc b i t hb ht
    rw [List.mem_singleton.1 hc] at hb
    cases hb
    cases ht
    exact .inl rfl
  · intro x hx b hb hp
    have hx' : x = ⟨3, 1⟩ ∨ x = ⟨6, 2⟩ := by simpa [sampleChain] using hx
    rcases hx' with rfl | rfl
    · cases hb
      cases hp
    · cases hb
      cases hp

/-- A method whose last statement is a block that returns. -/
def returningBlock : Method where
  owner := "A"
  name := "f"
  span := .zero
  bodyRange := .zero
  indent := ""
  body := ⟨#[
    ⟨[.conditional ⟨3, .source "a", some 1, none, .zero⟩,
      .conditional ⟨6, .source "b", some 2, none, .zero⟩, .block 3], .zero, true, false, false⟩,
    ⟨[.other ⟨"x();", .zero, .zero⟩], .zero, true, false, false⟩,
    ⟨[.other ⟨"y();", .zero, .zero⟩], .zero, true, false, false⟩,
    ⟨[.exit .returns ⟨"return;", .zero, .zero⟩], .zero, true, false, false⟩]⟩

theorem live_returningBlock : returningBlock.body.Live := by
  intro id b hb
  rw [Body.block_eq_ok] at hb
  rcases id with _ | _ | _ | _ | id
  · cases hb
    exact .cons (fun _ _ h => absurd h (Body.not_stops_conditional rfl))
      (.cons (fun _ _ h => absurd h (Body.not_stops_conditional rfl)) (List.pairwise_singleton _ _))
  · cases hb
    exact List.pairwise_singleton _ _
  · cases hb
    exact List.pairwise_singleton _ _
  · cases hb
    exact List.pairwise_singleton _ _
  · cases hb

/-- Its body with the chain of the two conditionals instrumented. -/
def returningBlockPlaced : Body := ⟨#[
  ⟨[.declaration "boolean" "branch3" (some (.bool false)),
    .declaration "boolean" "branch6" (some (.bool false)),
    .conditional ⟨3, .source "a", some 1, none, .zero⟩,
    .conditional ⟨6, .source "b", some 2, none, .zero⟩, .block 3,
    .assertion (.xor (.name "branch3") (.name "branch6"))], .zero, true, false, false⟩,
  ⟨[.assignment "branch3" (.bool true), .other ⟨"x();", .zero, .zero⟩], .zero, true, false, false⟩,
  ⟨[.assignment "branch6" (.bool true), .other ⟨"y();", .zero, .zero⟩], .zero, true, false, false⟩,
  ⟨[.exit .returns ⟨"return;", .zero, .zero⟩], .zero, true, false, false⟩]⟩

theorem discover_returningBlock : ∃ visits,
    returningBlock.discover .standard 0 = .ok (returningBlock, visits) ∧
      (Registry.empty.add visits).forMethod 0 = [sampleChain] :=
  ⟨[⟨0, 3, [⟨0, sampleChain, ⟨"A", "f", 3, [3, 6], false⟩⟩]⟩, ⟨1, 1, []⟩, ⟨2, 1, []⟩, ⟨3, 1, []⟩],
    by decide +kernel, rfl⟩

theorem instrument_returningBlock :
    returningBlock.body.instrument .standard [sampleChain] "A.f" =
      .ok (returningBlockPlaced, ⟨1, 2, 1⟩) := rfl

/-- The assertion goes behind the block that returns. -/
theorem returningBlock_not_live : returningBlock.body.TreeShaped ∧ returningBlock.body.Live ∧
    (∃ visits, returningBlock.discover .standard 0 = .ok (returningBlock, visits) ∧
      returningBlock.body.instrument .standard ((Registry.empty.add visits).forMethod 0) "A.f" =
        .ok (returningBlockPlaced, ⟨1, 2, 1⟩)) ∧ ¬ returningBlockPlaced.Live := by
  obtain ⟨visits, hdiscover, hchains⟩ := discover_returningBlock
  refine ⟨⟨by decide, by decide, by decide, by decide⟩, live_returningBlock,
    ⟨visits, hdiscover, hchains ▸ instrument_returningBlock⟩, fun hlive => ?_⟩
  have hstop : returningBlockPlaced.Stops (.block 3) := by
    refine .block rfl (List.mem_singleton_self _) ?_
    exact .exit .returns ⟨"return;", .zero, .zero⟩
  have hroot := List.pairwise_iff_getElem.1 (hlive Body.root _ rfl) 4 5 (by decide) (by decide)
    (by decide) hstop
  cases hroot

end Method

end BranchExclusion
