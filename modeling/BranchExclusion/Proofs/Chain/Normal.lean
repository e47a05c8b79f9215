import BranchExclusion.Chain.Normal
import BranchExclusion.Proofs.Body.Filled

/-!
# Making conditionals normal

* `Body.FilledAt`: the branches of some blocks were filled in, all that they lack, and no others;
* `exists_fill`: filling a block succeeds, and fills in its branches only;
* `IsRung`, `Filled.isRung_eq`: filling in branches leaves the ladders as they are;
* `Normal`: a block and all the ladders below it have their branches;
* `exists_filledAt_normalize`: making a block normal succeeds, and fills in the branches of its
  ladders only.
-/

namespace BranchExclusion

theorem Statement.fill_eq_some {next : BlockId} {s t : Statement} :
    s.fill next = some t ↔ ∃ c, s = .conditional c ∧ c.thenBranch = none ∧
      t = .conditional { c with thenBranch := some next } := by
  cases s with
  | conditional c =>
    by_cases h : c.thenBranch = none
    · simpa [Statement.fill, h] using eq_comm
    · simp [Statement.fill, h]
  | _ => simp [Statement.fill]

theorem Statement.fill_eq_none {next : BlockId} {s : Statement} :
    s.fill next = none ↔ ∀ c, s = .conditional c → c.thenBranch ≠ none := by
  cases s <;> simp [Statement.fill]

theorem fillBranches_filled (next : BlockId) (l : List Statement) :
    List.Forall₂ (Statement.Filled fun x => next ≤ x ∧ x < next + (fillBranches next l).2) l
      (fillBranches next l).1 := by
  induction l generalizing next with
  | nil => exact .nil
  | cons s l ih =>
    unfold fillBranches
    split
    · next t h =>
      obtain ⟨c, rfl, hc, rfl⟩ := Statement.fill_eq_some.1 h
      -- the branches of the rest are numbered behind this one
      refine .cons (.branch c next hc ⟨Nat.le_refl _, by simp⟩) ((ih (next + 1)).imp ?_)
      rintro s t hs
      refine hs.mono fun x hx => ⟨Nat.le_of_succ_le hx.1, Nat.lt_of_lt_of_eq hx.2 ?_⟩
      exact Nat.add_right_comm next 1 _
    · exact .cons (.same s) (ih next)

theorem thenBranch_ne_none_of_mem_fillBranches (next : BlockId) (l : List Statement)
    {c : Conditional} (h : Statement.conditional c ∈ (fillBranches next l).1) :
    c.thenBranch ≠ none := by
  induction l generalizing next with
  | nil => cases h
  | cons s l ih =>
    unfold fillBranches at h
    split at h
    · next t ht =>
      obtain ⟨d, -, -, rfl⟩ := Statement.fill_eq_some.1 ht
      rcases List.mem_cons.1 h with h | h
      · cases h; simp
      · exact ih (next + 1) h
    · next hs =>
      rcases List.mem_cons.1 h with rfl | h
      · exact Statement.fill_eq_none.1 hs c rfl
      · exact ih next h

/-- The statements mention what they mentioned before and, once each, the new blocks. -/
theorem perm_fillBranches (next : BlockId) (l : List Statement) :
    ((fillBranches next l).1.flatMap Statement.childBlocks).Perm
      (l.flatMap Statement.childBlocks ++ List.range' next (fillBranches next l).2) := by
  induction l generalizing next with
  | nil => exact .nil
  | cons s l ih =>
    unfold fillBranches
    split
    · next t h =>
      obtain ⟨c, rfl, hc, rfl⟩ := Statement.fill_eq_some.1 h
      simp only [List.flatMap_cons, Statement.childBlocks_conditional, hc, Option.toList_some,
        Option.toList_none, List.nil_append, List.range'_succ, List.append_assoc,
        List.singleton_append]
      refine .trans (.cons next ((ih (next + 1)).append_left _)) ?_
      rw [← List.append_assoc, ← List.append_assoc]
      exact List.perm_middle.symm
    · simp only [List.flatMap_cons, List.append_assoc]
      exact (ih next).append_left _

namespace Body

variable {body after : Body} {id p r : BlockId}

/-! ### One block -/

/-- Every conditional of the block has its true branch. -/
def Complete (body : Body) (id : BlockId) : Prop := ∃ b, body.block id = .ok b ∧ ¬ b.LacksBranch

theorem Complete.not_lacksBranch (h : body.Complete id) {b : Block} (hb : body.block id = .ok b) :
    ¬ b.LacksBranch := by
  obtain ⟨b', hb', hl⟩ := h
  obtain rfl := block_unique hb' hb
  exact hl

theorem Filled.complete (h : body.Filled after) (hc : body.Complete id) : after.Complete id := by
  obtain ⟨b, hb, hl⟩ := hc
  exact ⟨b, h.block_eq hb hl, hl⟩

theorem Filled.below (h : body.Filled after) {n : ℕ} {ids : List BlockId}
    (hids : body.below n id = .ok ids) (hc : ∀ x ∈ ids, body.Complete x) :
    after.below n id = .ok ids := by
  induction n generalizing id ids with
  | zero => cases hids
  | succ n ih =>
    obtain ⟨b, lists, hb, hl, rfl⟩ := below_succ.1 hids
    have hlacks := (hc id List.mem_cons_self).not_lacksBranch hb
    refine below_succ.2 ⟨b, lists, h.block_eq hb hlacks, ?_, rfl⟩
    refine forall₂_imp_mem hl fun c _ l hm hcl => ih hcl fun x hx => hc x ?_
    exact List.mem_cons_of_mem _ (List.mem_flatten.2 ⟨l, hm, hx⟩)

theorem mentions_set_allocEmpty {b : Block} (hb : body.block id = .ok b) (b' : Block) (n : ℕ)
    {new : List BlockId} (hp : b'.childBlocks.Perm (b.childBlocks ++ new)) :
    ((body.set id b').allocEmpty n).mentions.Perm (body.mentions ++ new) := by
  rw [block_eq_ok, Array.getElem?_eq_some_iff] at hb
  obtain ⟨hlt, rfl⟩ := hb
  have hlt' : id < body.blocks.toList.length := by simpa using hlt
  have hempty : (List.replicate n Block.synthetic).flatMap Block.childBlocks = [] := by
    rw [List.flatMap_eq_nil_iff]
    intro b hb
    rw [List.eq_of_mem_replicate hb]
    rfl
  have hsplit : body.blocks.toList = body.blocks.toList.take id ++
      body.blocks[id] :: body.blocks.toList.drop (id + 1) := by
    rw [← Array.getElem_toList hlt, List.getElem_cons_drop, List.take_append_drop]
  simp only [mentions, allocEmpty, set, Array.toList_append, Array.toList_setIfInBounds,
    Array.toList_replicate, List.flatMap_append, hempty, List.append_nil]
  rw [List.set_eq_take_append_cons_drop, if_pos hlt']
  conv_rhs => rw [hsplit]
  simp only [List.flatMap_append, List.flatMap_cons, List.append_assoc]
  refine List.Perm.append_left _ ((hp.append_right _).trans ?_)
  rw [List.append_assoc]
  exact List.perm_append_comm.append_left _

theorem TreeShaped.of_perm {new : List BlockId} (tree : body.TreeShaped)
    (hle : body.size ≤ after.size) (hp : after.mentions.Perm (body.mentions ++ new))
    (hnew : ∀ x ∈ new, body.size ≤ x ∧ x < after.size) (hnodup : new.Nodup) :
    after.TreeShaped where
  nonempty := Nat.lt_of_lt_of_le tree.nonempty hle
  inRange x hx := by
    rcases List.mem_append.1 (hp.mem_iff.1 hx) with hx | hx
    · exact Nat.lt_of_lt_of_le (tree.inRange x hx) hle
    · exact (hnew x hx).2
  root_free hx := by
    rcases List.mem_append.1 (hp.mem_iff.1 hx) with hx | hx
    · exact tree.root_free hx
    · exact absurd (hnew root hx).1 (Nat.not_le.2 tree.nonempty)
  once := by
    refine hp.nodup_iff.2 (List.nodup_append.2 ⟨tree.once, hnodup, ?_⟩)
    rintro x hx _ hx' rfl
    exact absurd (hnew x hx').1 (Nat.not_le.2 (tree.inRange x hx))

theorem block_allocEmpty_of_le {n : ℕ} {b : Block} (hle : body.size ≤ id)
    (h : (body.allocEmpty n).block id = .ok b) : b = Block.synthetic := by
  simp only [block_eq_ok, allocEmpty, size] at h hle
  rw [Array.getElem?_append_right hle, Array.getElem?_replicate] at h
  split at h
  · exact (Option.some.inj h).symm
  · cases h

/-! ### The blocks that were filled -/

/-- `after` is `body` with all missing branches of the blocks in `P` filled in, and no others. The
new blocks are mentioned once each. -/
structure FilledAt (body : Body) (P : BlockId → Prop) (after : Body) : Prop
    extends body.Filled after where
  complete : ∀ {id b}, P id → after.block id = .ok b → ¬ b.LacksBranch
  untouched : ∀ {id}, id < body.size → ¬ P id → after.block id = body.block id
  mentions : after.mentions.Perm (body.mentions ++ List.range' body.size (after.size - body.size))

namespace FilledAt

variable {P Q : BlockId → Prop} {last : Body}

theorem refl (body : Body) : body.FilledAt (fun _ => False) body where
  toFilled := .refl body
  complete h := h.elim
  untouched _ _ := rfl
  mentions := by simp

theorem congr (h : body.FilledAt P after) (hpq : ∀ id, P id ↔ Q id) : body.FilledAt Q after := by
  obtain rfl : P = Q := funext fun id => propext (hpq id)
  exact h

theorem trans (h : body.FilledAt P after) (h' : after.FilledAt Q last) :
    body.FilledAt (fun id => P id ∨ Q id) last where
  toFilled := h.toFilled.trans h'.toFilled
  complete {id b} hpq hb := by
    rcases hpq with hp | hq
    · -- a complete block stays as it is
      rcases h'.toFilled.cases_block hb with ⟨b', hb', hf⟩ | ⟨-, rfl⟩
      · rw [hf.eq_of_not_lacksBranch (h.complete hp hb')]
        exact h.complete hp hb'
      · rintro ⟨c, hc, -⟩
        cases hc
    · exact h'.complete hq hb
  untouched hlt hpq := by
    rw [h'.untouched (Nat.lt_of_lt_of_le hlt h.size_le) fun hq => hpq (.inr hq),
      h.untouched hlt fun hp => hpq (.inl hp)]
  mentions := by
    have hrange : List.range' body.size (last.size - body.size) =
        List.range' body.size (after.size - body.size) ++
          List.range' after.size (last.size - after.size) := by
      have hle := h.size_le
      have hle' := h'.size_le
      have hstart : after.size = body.size + (after.size - body.size) := by omega
      conv_rhs => rw [hstart, Nat.add_sub_cancel_left]
      rw [List.range'_append_1]
      congr 1
      omega
    rw [hrange, ← List.append_assoc]
    exact h'.mentions.trans (h.mentions.append_right _)

theorem treeShaped (h : body.FilledAt P after) (tree : body.TreeShaped) : after.TreeShaped := by
  refine tree.of_perm h.size_le h.mentions (fun x hx => ?_) List.nodup_range'
  obtain ⟨hle, hlt⟩ := List.mem_range'_1.1 hx
  exact ⟨hle, Nat.lt_of_lt_of_eq hlt (Nat.add_sub_of_le h.size_le)⟩

end FilledAt

/-- Filling a block succeeds, and fills in the branches of this block only. -/
theorem exists_fill {b : Block} (hb : body.block id = .ok b) :
    ∃ after, body.fill id = .ok after ∧ body.FilledAt (fun x => x = id) after := by
  set filled := fillBranches body.size b.statements with hfilled
  set b' : Block := { b with statements := filled.1 } with hb'
  have hlt : id < body.size := lt_size_of_block_eq_ok hb
  have hblock : ((body.set id b').allocEmpty filled.2).block id = .ok b' := by
    rw [block_allocEmpty_of_lt _ (by simpa using hlt), block_set_self b' hlt]
  have hother : ∀ {x}, x < body.size → x ≠ id →
      ((body.set id b').allocEmpty filled.2).block x = body.block x := by
    intro x hx hne
    rw [block_allocEmpty_of_lt _ (by simpa using hx), block_set_of_ne _ _ (Ne.symm hne)]
  refine ⟨(body.set id b').allocEmpty filled.2, by simp [fill, hb, hfilled, hb'], ⟨?_, ?_, ?_⟩, ?_,
    hother, ?_⟩
  · simp
  · intro x c hc
    by_cases hx : x = id
    · subst hx
      obtain rfl := block_unique hb hc
      refine ⟨b', hblock, ?_, rfl⟩
      exact (fillBranches_filled body.size b.statements).imp fun _ _ hs =>
        hs.mono (by simp [hfilled])
    · exact ⟨c, by rw [hother (lt_size_of_block_eq_ok hc) hx, hc], .refl _ _⟩
  · intro x c hle hc
    exact block_allocEmpty_of_le (by simpa using hle) hc
  · rintro x c rfl hc ⟨d, hd, hn⟩
    obtain rfl := block_unique hblock hc
    exact thenBranch_ne_none_of_mem_fillBranches _ _ hd hn
  · have hp := mentions_set_allocEmpty hb b' filled.2 (perm_fillBranches body.size b.statements)
    simpa using hp

/-! ### Ladders -/

/-- Block `r` is the alternative of a conditional of block `p`, and an `else if`. -/
def IsRung (body : Body) (p r : BlockId) : Prop :=
  ∃ b c b' d, body.block p = .ok b ∧ Statement.conditional c ∈ b.statements ∧
    c.elseBranch = some r ∧ body.block r = .ok b' ∧ b'.singleConditional? = some d

theorem IsRung.isChild (h : body.IsRung p r) : body.IsChild p r := by
  obtain ⟨b, c, b', d, hb, hc, he, -⟩ := h
  refine ⟨b, hb, List.mem_flatMap.2 ⟨.conditional c, hc, ?_⟩⟩
  simp [he]

/-- The block and all the ladders below it have their branches. -/
def Normal (body : Body) (id : BlockId) : Prop :=
  ∀ r, Relation.ReflTransGen body.IsRung id r → body.Complete r

theorem exists_rungsOf {l : List Statement}
    (h : ∀ c x, Statement.conditional c ∈ l → c.elseBranch = some x → ∃ b, body.block x = .ok b) :
    ∃ rungs, body.rungsOf l = .ok rungs ∧ ∀ x, x ∈ rungs ↔ ∃ c b d, Statement.conditional c ∈ l ∧
      c.elseBranch = some x ∧ body.block x = .ok b ∧ b.singleConditional? = some d := by
  induction l with
  | nil => exact ⟨[], rfl, by simp⟩
  | cons s l ih =>
    obtain ⟨rungs, hr, hmem⟩ := ih fun c x hc => h c x (List.mem_cons_of_mem s hc)
    unfold rungsOf
    split
    · next hs =>
      refine ⟨rungs, hr, fun x => ?_⟩
      rw [hmem]
      constructor
      · rintro ⟨c, b, d, hc, he⟩
        exact ⟨c, b, d, List.mem_cons_of_mem s hc, he⟩
      · rintro ⟨c, b, d, hc, he, hb⟩
        rcases List.mem_cons.1 hc with rfl | hc
        · simp [Statement.conditional?, he] at hs
        · exact ⟨c, b, d, hc, he, hb⟩
    · next alternative hs =>
      obtain ⟨c, hc, he⟩ := Option.bind_eq_some_iff.1 hs
      rw [Statement.conditional?_eq_some] at hc
      subst hc
      obtain ⟨b, hb⟩ := h c alternative List.mem_cons_self he
      refine ⟨if b.singleConditional?.isSome then alternative :: rungs else rungs, ?_, fun x => ?_⟩
      · rw [hb, ok_bind, hr]
        rfl
      · have here : x ∈ (if b.singleConditional?.isSome then alternative :: rungs else rungs) ↔
            (x = alternative ∧ b.singleConditional?.isSome) ∨ x ∈ rungs := by
          split <;> simp_all
        rw [here, hmem]
        constructor
        · rintro (⟨rfl, hsome⟩ | ⟨c', b', d, hc, he⟩)
          · obtain ⟨d, hd⟩ := Option.isSome_iff_exists.1 hsome
            exact ⟨c, b, d, List.mem_cons_self, he, hb, hd⟩
          · exact ⟨c', b', d, List.mem_cons_of_mem _ hc, he⟩
        · rintro ⟨c', b', d, hc, he', hb', hd⟩
          rcases List.mem_cons.1 hc with heq | hc
          · cases heq
            rw [he, Option.some.injEq] at he'
            subst he'
            obtain rfl := block_unique hb hb'
            exact .inl ⟨rfl, by rw [hd]; rfl⟩
          · exact .inr ⟨c', b', d, hc, he', hb', hd⟩

theorem exists_rungs (tree : body.TreeShaped) {b : Block} (hb : body.block id = .ok b) :
    ∃ rungs, body.rungs id = .ok rungs ∧ ∀ x, x ∈ rungs ↔ body.IsRung id x := by
  have hblocks : ∀ c x, Statement.conditional c ∈ b.statements → c.elseBranch = some x →
      ∃ b', body.block x = .ok b' := by
    intro c x hc he
    refine tree.exists_child (p := id) ⟨b, hb, List.mem_flatMap.2 ⟨_, hc, ?_⟩⟩
    simp [he]
  obtain ⟨rungs, hr, hmem⟩ := exists_rungsOf hblocks
  refine ⟨rungs, by rw [Body.rungs, hb, ok_bind, hr], fun x => ?_⟩
  rw [hmem]
  constructor
  · rintro ⟨c, b', d, hc⟩
    exact ⟨b, c, b', d, hb, hc⟩
  · rintro ⟨b₁, c, b', d, hb₁, hc⟩
    obtain rfl := block_unique hb hb₁
    exact ⟨c, b', d, hc⟩

/-- Filling in branches makes no new rung, and ends none. -/
theorem Filled.isRung_eq (h : body.Filled after) (tree : body.TreeShaped) :
    after.IsRung = body.IsRung := by
  funext p r
  refine propext ⟨?_, ?_⟩
  · rintro ⟨b, c, b₁, d, hb, hc, he, hb₁, hd⟩
    rcases h.cases_block hb with ⟨b₀, hb₀, hf⟩ | ⟨-, rfl⟩
    · obtain ⟨t, ht, hst⟩ := forall₂_exists_left hf.1 hc
      obtain ⟨c₀, rfl, -, helse, -⟩ := hst.conditional_right
      have hchild : body.IsChild p r :=
        ⟨b₀, hb₀, List.mem_flatMap.2 ⟨_, ht, by simp [← helse, he]⟩⟩
      obtain ⟨b', hb'⟩ := tree.exists_child hchild
      obtain ⟨b'', hb'', hf'⟩ := h.old hb'
      obtain rfl := block_unique hb₁ hb''
      cases hs : b'.singleConditional? with
      | none => rw [hf'.singleConditional?_eq_none hs] at hd; cases hd
      | some d' => exact ⟨b₀, c₀, b', d', hb₀, ht, helse ▸ he, hb', hs⟩
    · cases hc
  · rintro ⟨b, c, b₁, d, hb, hc, he, hb₁, hd⟩
    obtain ⟨b', hb', hf⟩ := h.old hb
    obtain ⟨b₁', hb₁', hf₁⟩ := h.old hb₁
    obtain ⟨t, ht, hst⟩ := forall₂_exists_right hf.1 hc
    obtain ⟨c', rfl, helse⟩ := hst.conditional_left
    obtain ⟨d', hd', -⟩ := hf₁.singleConditional?_eq_some hd
    exact ⟨b', c', b₁', d', hb', ht, helse ▸ he, hb₁', hd'⟩

theorem Filled.normal (h : body.Filled after) (tree : body.TreeShaped) (hn : body.Normal id) :
    after.Normal id := by
  intro r hr
  rw [h.isRung_eq tree] at hr
  exact h.complete (hn r hr)

/-! ### A block with its ladders -/

/-- Filling a block and its ladders succeeds, and fills in their branches only. -/
theorem exists_filledAt_normalizeWithin {n : ℕ} (tree : body.TreeShaped) (hn : body.Nests n id) :
    ∃ after, normalizeWithin n body id = .ok after ∧
      body.FilledAt (Relation.ReflTransGen body.IsRung id) after := by
  induction n generalizing body id with
  | zero => exact hn.elim
  | succ n ih =>
    have ⟨b, hb, _⟩ := hn
    obtain ⟨filled, hfill, hf⟩ := exists_fill hb
    have htree := hf.treeShaped tree
    have hn' := hf.nests hn
    obtain ⟨b', hb', -⟩ := hf.old hb
    obtain ⟨rungs, hrungs, hmem⟩ := exists_rungs htree hb'
    rw [hf.isRung_eq tree] at hmem
    -- the ladders are filled one after the other, and stay the ladders of the first body
    obtain ⟨after, hafter, hfa⟩ := exists_foldlM (f := normalizeWithin n) (l := rungs.reverse)
      (s := filled)
      (fun done s => body.FilledAt
        (fun x => x = id ∨ ∃ r ∈ done, Relation.ReflTransGen body.IsRung r x) s)
      (hf.congr (by simp)) fun done r rest s hl hs => by
        have hr : body.IsRung id r := (hmem r).1 (List.mem_reverse.1 (hl ▸ by simp))
        have hns := hs.nests hn
        have hrs : s.IsRung id r := by rwa [hs.isRung_eq tree]
        obtain ⟨s', hs', hfs⟩ := ih (hs.treeShaped tree) (hns.of_isChild hrs.isChild)
        rw [hs.isRung_eq tree] at hfs
        refine ⟨s', hs', (hs.trans hfs).congr fun x => ?_⟩
        simp only [List.mem_append, List.mem_singleton, or_and_right, exists_or, exists_eq_left,
          or_assoc]
    refine ⟨after, ?_, hfa.congr fun x => ?_⟩
    · rw [normalizeWithin, hfill, ok_bind, hrungs, ok_bind, hafter]
    · rw [Relation.ReflTransGen.cases_head_iff]
      simp only [List.mem_reverse, hmem, eq_comm]

theorem FilledAt.normal (h : body.FilledAt (Relation.ReflTransGen body.IsRung id) after)
    (tree : body.TreeShaped) (hid : ∃ b, body.block id = .ok b) : after.Normal id := by
  intro r hr
  rw [h.isRung_eq tree] at hr
  have hr' : ∃ b, body.block r = .ok b := by
    induction hr with
    | refl => exact hid
    | tail _ hr _ => exact tree.exists_child hr.isChild
  obtain ⟨b, hb⟩ := hr'
  obtain ⟨b', hb', -⟩ := h.old hb
  exact ⟨b', hb', h.complete hr hb'⟩

theorem exists_filledAt_normalize (tree : body.TreeShaped) {n : ℕ} (hn : body.Nests n id)
    (hle : n ≤ body.maxDepth) : ∃ after, body.normalize id = .ok after ∧
      body.FilledAt (Relation.ReflTransGen body.IsRung id) after :=
  exists_filledAt_normalizeWithin tree (hn.mono hle)

theorem exists_normalize (tree : body.TreeShaped) {n : ℕ} (hn : body.Nests n id)
    (hle : n ≤ body.maxDepth) : ∃ after, body.normalize id = .ok after ∧ body.Filled after ∧
      after.TreeShaped ∧ after.Normal id := by
  obtain ⟨after, hafter, hf⟩ := exists_filledAt_normalize tree hn hle
  exact ⟨after, hafter, hf.toFilled, hf.treeShaped tree, hf.normal tree hn.exists_block⟩

end Body

end BranchExclusion
