import BranchExclusion.Proofs.Chain.Run

/-!
# A block without the conditionals that leave it

A scan looks at a block and at what lies below it. When another block changes, it finds the same,
and so does it when the conditionals that leave the block are taken out, as long as none of them has
an alternative.

* `Body.Avoids`: a block that does not lie below another;
* `Body.normalizeWithin_set`: making a block normal, with another block changed;
* `Body.withoutLeaving`, `Body.normalize_withoutLeaving`: the block without these conditionals, and
  how it is made normal;
* `Scanner.Yields.without`: the chains of the statements that stay;
* `Scanner.scan_withoutLeaving`: a scan of the whole block under the transparent policy is a scan of
  the rest of it.
-/

namespace BranchExclusion

namespace Body

variable {body after filled : Body} {id x y : BlockId} {b new : Block} {n : ℕ}

/-! ### A block that is not below -/

/-- Block `id` is not block `x` and does not lie below it. -/
def Avoids (body : Body) (id x : BlockId) : Prop := ∀ y, body.Reaches x y → y ≠ id

theorem Avoids.ne (h : body.Avoids id x) : x ≠ id := h x .self

theorem Avoids.child (h : body.Avoids id x) (hc : body.IsChild x y) : body.Avoids id y :=
  fun z hz => h z (.head hc hz)

theorem TreeShaped.avoids_child (tree : body.TreeShaped) (hroot : body.Reaches root id)
    (hc : body.IsChild id x) : body.Avoids id x := by
  rintro y hy rfl
  exact tree.not_reaches_owner hroot hc hy .self

/-- Below an old block there are old blocks and new ones. -/
theorem Filled.reaches_old (h : body.Filled after) (hr : after.Reaches x y) :
    body.Reaches x y ∨ body.size ≤ y := by
  induction hr with
  | self => exact .inl .self
  | @child p y _ hc ih =>
    obtain ⟨b', hb', hy⟩ := hc
    rcases h.cases_block hb' with ⟨b, hb, hf⟩ | ⟨-, rfl⟩
    · rcases hf.mem_childBlocks hy with hy | ⟨hnew, -⟩
      · have hlt := lt_size_of_block_eq_ok hb
        exact .inl (.child (ih.resolve_right (Nat.not_le.2 hlt)) ⟨b, hb, hy⟩)
      · exact .inr hnew.1
    · cases hy

theorem Filled.avoids (h : body.Filled after) (hid : id < body.size) (ha : body.Avoids id x) :
    after.Avoids id x := by
  intro y hy
  rcases h.reaches_old hy with hy | hle
  · exact ha y hy
  · exact (Nat.lt_of_lt_of_le hid hle).ne'

/-! ### Another block changed -/

theorem set_comm (body : Body) (b new : Block) (hne : x ≠ id) :
    (body.set id new).set x b = (body.set x b).set id new := by
  simp only [set, mk.injEq]
  exact Array.setIfInBounds_comm _ _ (Ne.symm hne)

theorem set_set (body : Body) (id : BlockId) (b new : Block) :
    (body.set id b).set id new = body.set id new := by
  simp [set]

theorem allocEmpty_set (n : ℕ) (new : Block) (hid : id < body.size) :
    (body.set id new).allocEmpty n = (body.allocEmpty n).set id new := by
  simp only [size] at hid
  simp only [set, allocEmpty, mk.injEq]
  rw [Array.setIfInBounds_append, if_pos hid]

theorem fill_eq_ok : body.fill x = .ok filled ↔ ∃ b, body.block x = .ok b ∧
    filled = (body.set x { b with statements := (fillBranches body.size b.statements).1 }).allocEmpty
      (fillBranches body.size b.statements).2 := by
  rw [fill, bind_eq_ok]
  simp only [pure_eq_ok, Except.ok.injEq, eq_comm (b := filled)]

theorem fill_set (new : Block) (hne : x ≠ id) (hid : id < body.size)
    (h : body.fill x = .ok filled) : (body.set id new).fill x = .ok (filled.set id new) := by
  obtain ⟨b, hb, rfl⟩ := fill_eq_ok.1 h
  refine fill_eq_ok.2 ⟨b, by rw [block_set_of_ne _ _ (Ne.symm hne), hb], ?_⟩
  rw [size_set, set_comm _ _ _ hne]
  exact (allocEmpty_set _ new (by simpa using hid)).symm

theorem rungsOf_set (body : Body) (new : Block) {l : List Statement}
    (h : ∀ t ∈ l, ∀ y ∈ t.childBlocks, y ≠ id) :
    (body.set id new).rungsOf l = body.rungsOf l := by
  induction l with
  | nil => rfl
  | cons t l ih =>
    have hl := ih fun u hu => h u (List.mem_cons_of_mem t hu)
    unfold rungsOf
    split
    · exact hl
    · next alternative hsome =>
      obtain ⟨c, hc, he⟩ := Option.bind_eq_some_iff.1 hsome
      rw [Statement.conditional?_eq_some] at hc
      subst hc
      have hne := h _ List.mem_cons_self alternative (by simp [he])
      rw [block_set_of_ne _ _ (Ne.symm hne), hl]

theorem rungs_set (body : Body) (new : Block) (ha : body.Avoids id x) :
    (body.set id new).rungs x = body.rungs x := by
  rw [rungs, rungs, block_set_of_ne _ _ (Ne.symm ha.ne)]
  cases hb : body.block x with
  | error e => rfl
  | ok b =>
    refine rungsOf_set body new fun t ht y hy => (ha.child ⟨b, hb, ?_⟩).ne
    exact List.mem_flatMap.2 ⟨t, ht, hy⟩

/-- Many ladders are made normal, with another block changed. -/
theorem foldlM_set {rungs : List BlockId}
    (step : ∀ body after x, body.TreeShaped → body.Nests n x → id < body.size →
      body.Avoids id x → normalizeWithin n body x = .ok after →
      normalizeWithin n (body.set id new) x = .ok (after.set id new))
    (tree : body.TreeShaped) (hid : id < body.size)
    (hrungs : ∀ r ∈ rungs, body.Nests n r ∧ body.Avoids id r)
    (h : rungs.foldlM (normalizeWithin n) body = .ok after) :
    rungs.foldlM (normalizeWithin n) (body.set id new) = .ok (after.set id new) ∧
      after.block id = body.block id := by
  induction rungs generalizing body with
  | nil =>
    cases h
    exact ⟨rfl, rfl⟩
  | cons r rungs ih =>
    rw [List.foldlM_cons, bind_eq_ok] at h
    obtain ⟨next, hnext, h⟩ := h
    obtain ⟨hnests, havoids⟩ := hrungs r List.mem_cons_self
    obtain ⟨next', hnext', hf⟩ := exists_filledAt_normalizeWithin tree hnests
    obtain rfl : next' = next := by rwa [hnext, Except.ok.injEq, eq_comm] at hnext'
    obtain ⟨hrest, hblock⟩ := ih (hf.treeShaped tree) (Nat.lt_of_lt_of_le hid hf.size_le)
      (fun q hq => ⟨hf.nests (hrungs q (List.mem_cons_of_mem r hq)).1,
        hf.toFilled.avoids hid (hrungs q (List.mem_cons_of_mem r hq)).2⟩) h
    refine ⟨?_, hblock.trans (hf.untouched hid fun hr => ?_)⟩
    · rw [List.foldlM_cons, step body next' r tree hnests hid havoids hnext, ok_bind, hrest]
    · exact havoids id (reaches_iff.2 (reflTransGen_isChild hr)) rfl

/-- The ladders of a filled block and what is needed to go on with them. -/
theorem ladders_filled (tree : body.TreeShaped) (hn : body.Nests (n + 1) x)
    (h : body.FilledAt (fun y => y = x) filled) {rungs : List BlockId}
    (hr : filled.rungs x = .ok rungs) :
    ∀ r ∈ rungs.reverse, filled.IsChild x r ∧ filled.Nests n r := by
  obtain ⟨b, hb⟩ := (h.nests hn).exists_block
  obtain ⟨rungs', hr', hmem⟩ := exists_rungs (h.treeShaped tree) hb
  obtain rfl : rungs = rungs' := by rwa [hr, Except.ok.injEq] at hr'
  intro r hr
  have hrung := (hmem r).1 (List.mem_reverse.1 hr)
  exact ⟨hrung.isChild, (h.nests hn).of_isChild hrung.isChild⟩

/-- A block is made normal in the same way when another block is changed that is not below it. -/
theorem normalizeWithin_set (new : Block) (tree : body.TreeShaped) (hn : body.Nests n x)
    (hid : id < body.size) (ha : body.Avoids id x) (h : normalizeWithin n body x = .ok after) :
    normalizeWithin n (body.set id new) x = .ok (after.set id new) := by
  induction n generalizing body after x with
  | zero => exact hn.elim
  | succ n ih =>
    obtain ⟨filled, hfill, h⟩ := bind_eq_ok.1 h
    obtain ⟨rungs, hrungs, h⟩ := bind_eq_ok.1 h
    obtain ⟨b, hb⟩ := hn.exists_block
    obtain ⟨filled', hfill', hf⟩ := exists_fill hb
    obtain rfl : filled' = filled := by rwa [hfill, Except.ok.injEq, eq_comm] at hfill'
    have hid' := Nat.lt_of_lt_of_le hid hf.size_le
    have ha' := hf.toFilled.avoids hid ha
    rw [normalizeWithin, fill_set new ha.ne hid hfill, ok_bind, rungs_set _ _ ha', hrungs, ok_bind]
    refine (foldlM_set (fun _ _ _ tree hn hid ha h => ih tree hn hid ha h) (hf.treeShaped tree) hid'
      (fun r hr => ?_) h).1
    obtain ⟨hchild, hnests⟩ := ladders_filled tree hn hf hrungs r hr
    exact ⟨hnests, ha'.child hchild⟩

theorem ladderEndWithin_set (body : Body) (new : Block) (ha : body.Avoids id x) :
    (body.set id new).ladderEndWithin n x = body.ladderEndWithin n x := by
  induction n generalizing x with
  | zero => rfl
  | succ n ih =>
    rw [ladderEndWithin, ladderEndWithin, block_set_of_ne _ _ (Ne.symm ha.ne)]
    cases hb : body.block x with
    | error e => rfl
    | ok b =>
      rw [ok_bind, ok_bind]
      split
      · rfl
      · next rung hc =>
        split
        · rfl
        · next next he => exact ih (ha.child (isChild_of_singleConditional? hb hc he))

theorem resume_set (body : Body) (new : Block) (ha : body.Avoids id x) :
    Scanner.resume (body.set id new) x = Scanner.resume body x := by
  have hdepth : (body.set id new).maxDepth = body.maxDepth := by simp [maxDepth]
  rw [Scanner.resume, Scanner.resume, ladderEnd, ladderEnd, hdepth, ladderEndWithin_set _ _ ha]

theorem exits_set (body : Body) (new : Block) {c : Conditional}
    (h : ∀ t, c.thenBranch = some t → t ≠ id) :
    Scanner.exits (body.set id new) c = Scanner.exits body c := by
  unfold Scanner.exits
  split
  · rfl
  · next t ht => rw [block_set_of_ne _ _ (Ne.symm (h t ht))]

/-! ### The conditionals that leave the block -/

/-- The statement is no conditional that directly leaves the block. -/
def stays (body : Body) (t : Statement) : Bool := !t.conditional?.any body.leaves

/-- The block without the conditionals that directly leave it. -/
def withoutLeaving (body : Body) (b : Block) : Block :=
  { b with statements := b.statements.filter body.stays }

theorem stays_conditional (body : Body) (c : Conditional) :
    body.stays (.conditional c) = !body.leaves c := rfl

/-- Where no statement that lacks a branch is taken out, before or after it gets the branch, the
branches that are filled in are the same. -/
theorem fillBranches_filter {p : Statement → Bool} {next : BlockId} (l : List Statement)
    (hlacks : ∀ c : Conditional, c.thenBranch = none → p (.conditional c) = true)
    (hfilled : ∀ (c : Conditional) (t : BlockId), next ≤ t →
      p (.conditional { c with thenBranch := some t }) = true) :
    fillBranches next (l.filter p) =
      ((fillBranches next l).1.filter p, (fillBranches next l).2) := by
  induction l generalizing next with
  | nil => rfl
  | cons t l ih =>
    cases ht : t.fill next with
    | none =>
      have hrest := ih hfilled
      cases hp : p t with
      | true => simp only [List.filter_cons_of_pos hp, fillBranches, ht, hrest]
      | false =>
        have hneg : ¬ p t = true := by simp [hp]
        simp only [List.filter_cons_of_neg hneg, fillBranches, ht, hrest]
    | some filled =>
      have hrest := ih fun c t hle => hfilled c t (Nat.le_of_succ_le hle)
      obtain ⟨c, rfl, hc, rfl⟩ := Statement.fill_eq_some.1 ht
      have hp := hfilled c next (Nat.le_refl _)
      simp only [List.filter_cons_of_pos (hlacks c hc), fillBranches, ht, hrest,
        List.filter_cons_of_pos hp]

theorem rungsOf_filter {p : Statement → Bool} {l : List Statement}
    (h : ∀ t ∈ l, p t = false → t.alternative? = none) :
    body.rungsOf (l.filter p) = body.rungsOf l := by
  induction l with
  | nil => rfl
  | cons t l ih =>
    have hrest := ih fun u hu => h u (List.mem_cons_of_mem t hu)
    cases hp : p t with
    | true =>
      rw [List.filter_cons_of_pos hp]
      unfold rungsOf
      rw [hrest]
    | false =>
      have hnone : t.conditional?.bind Conditional.elseBranch = none := h t List.mem_cons_self hp
      rw [List.filter_cons_of_neg (by simp [hp]), hrest]
      conv_rhs => rw [rungsOf, hnone]

/-- A conditional that got its branch leaves the block as it did before. -/
theorem leaves_of_filled (h : body.Filled after) (hb : body.block id = .ok b)
    (tree : body.TreeShaped) {c d : Conditional} (hc : Statement.conditional c ∈ b.statements)
    (hcd : Statement.Filled (fun x => body.size ≤ x ∧ x < after.size) (.conditional c)
      (.conditional d)) : after.leaves d = body.leaves c ∧ body.leaves d = body.leaves c := by
  cases hcd with
  | same =>
    refine ⟨?_, rfl⟩
    unfold leaves
    split
    · rfl
    · next t ht =>
      have hchild : body.IsChild id t := ⟨b, hb, List.mem_flatMap.2 ⟨_, hc, by simp [ht]⟩⟩
      obtain ⟨b₁, hb₁⟩ := tree.exists_child hchild
      obtain ⟨b₂, hb₂, hf⟩ := h.old hb₁
      rw [hb₁, hb₂]
      exact hf.exitsDirectly_eq
  | branch _ t hn ht =>
    obtain ⟨e, he⟩ := exists_block ht.2
    have hmissing : (body.block t).toOption = none := by
      cases hblock : body.block t with
      | error _ => rfl
      | ok b₁ => exact absurd (lt_size_of_block_eq_ok hblock) (Nat.not_lt.2 ht.1)
    constructor
    · simp [leaves, hn, he, h.new ht.1 he, Except.toOption, Block.exitsDirectly]
    · simp [leaves, hn, hmissing]

/-- A conditional that lacks its branch, or has one that is not there yet, stays. -/
theorem stays_of_missing {c : Conditional} (h : ∀ t, c.thenBranch = some t → body.size ≤ t) :
    body.stays (.conditional c) = true := by
  have hleaves : body.leaves c = false := by
    unfold leaves
    split
    · rfl
    · next t ht =>
      cases hblock : body.block t with
      | error e => rfl
      | ok b => exact absurd (lt_size_of_block_eq_ok hblock) (Nat.not_lt.2 (h t ht))
  rw [stays_conditional, hleaves]
  rfl

/-- The branches of the rest of the block are filled in as in the whole block. -/
theorem fill_withoutLeaving (hb : body.block id = .ok b) (h : body.fill id = .ok filled) :
    ∃ b', filled.block id = .ok b' ∧
      (body.set id (body.withoutLeaving b)).fill id =
        .ok (filled.set id (body.withoutLeaving b')) := by
  have hid := lt_size_of_block_eq_ok hb
  obtain ⟨b₁, hb₁, rfl⟩ := fill_eq_ok.1 h
  obtain rfl := block_unique hb hb₁
  have hfilter : fillBranches body.size (b.statements.filter body.stays) =
      ((fillBranches body.size b.statements).1.filter body.stays,
        (fillBranches body.size b.statements).2) := by
    refine fillBranches_filter b.statements (fun c hc => stays_of_missing ?_) fun c t hle =>
      stays_of_missing ?_
    · simp [hc]
    · rintro _ ⟨⟩
      exact hle
  refine ⟨{ b with statements := (fillBranches body.size b.statements).1 }, ?_,
    fill_eq_ok.2 ⟨_, block_set_self _ hid, ?_⟩⟩
  · rw [block_allocEmpty_of_lt _ (by simpa using hid), block_set_self _ hid]
  · simp only [withoutLeaving, size_set, hfilter, set_set]
    rw [← allocEmpty_set _ _ (by simpa using hid), set_set]

/-- The ladders of a filled block start as well at the conditionals that do not leave it. -/
theorem rungs_withoutLeaving {b' : Block} (tree : body.TreeShaped) (hf : body.Filled filled)
    (hb : body.block id = .ok b) (hb' : filled.block id = .ok b')
    (havoids : ∀ r, filled.IsChild id r → filled.Avoids id r)
    (halt : ∀ c, Statement.conditional c ∈ b.statements → body.leaves c = true →
      c.elseBranch = none) :
    (filled.set id (body.withoutLeaving b')).rungs id = filled.rungs id := by
  obtain ⟨b₁, hb₁, hbf⟩ := hf.old hb
  obtain rfl := block_unique hb' hb₁
  rw [rungs, rungs, block_set_self _ (lt_size_of_block_eq_ok hb'), hb', ok_bind, ok_bind, rungsOf_set,
    withoutLeaving, rungsOf_filter]
  · intro t ht hstays
    obtain ⟨u, hu, hut⟩ := forall₂_exists_left hbf.1 ht
    cases hcond : t.conditional? with
    | none => simp [stays, hcond] at hstays
    | some d =>
      rw [Statement.conditional?_eq_some] at hcond
      subst hcond
      obtain ⟨c, rfl, -, helse, -⟩ := hut.conditional_right
      have hleaves := (leaves_of_filled hf hb tree hu hut).2
      rw [stays_conditional, hleaves] at hstays
      exact helse.trans (halt c hu (by simpa using hstays))
  · intro t ht y hy
    have hchild : filled.IsChild id y :=
      ⟨b', hb', List.mem_flatMap.2 ⟨t, List.mem_of_mem_filter ht, hy⟩⟩
    exact (havoids y hchild).ne

/-- The block without the conditionals that leave it is made normal as the whole block is, when none
of them has an alternative. -/
theorem normalize_withoutLeaving (tree : body.TreeShaped) (hroot : body.Reaches root id)
    (hb : body.block id = .ok b)
    (halt : ∀ c, Statement.conditional c ∈ b.statements → body.leaves c = true →
      c.elseBranch = none) (h : body.normalize id = .ok after) :
    ∃ b', after.block id = .ok b' ∧ b.Filled (fun x => body.size ≤ x ∧ x < after.size) b' ∧
      (body.set id (body.withoutLeaving b)).normalize id =
        .ok (after.set id (body.withoutLeaving b')) := by
  have hid := lt_size_of_block_eq_ok hb
  have hn : body.Nests (body.size + 1) id := tree.nests_root.of_reaches hroot
  obtain ⟨after', hafter', hfa⟩ := exists_filledAt_normalize tree hn (Nat.le_refl _)
  obtain rfl : after' = after := by rwa [h, Except.ok.injEq, eq_comm] at hafter'
  obtain ⟨filled, hfill, hfold⟩ := bind_eq_ok.1 h
  obtain ⟨rungs, hrungs, hfold⟩ := bind_eq_ok.1 hfold
  obtain ⟨filled', hfill', hf⟩ := exists_fill hb
  obtain rfl : filled' = filled := by rwa [hfill, Except.ok.injEq, eq_comm] at hfill'
  have htree := hf.treeShaped tree
  have hid' := Nat.lt_of_lt_of_le hid hf.size_le
  have hladders := ladders_filled tree hn hf hrungs
  obtain ⟨b₁, hb₁, hfill₁⟩ := fill_withoutLeaving hb hfill
  have havoids : ∀ r, filled'.IsChild id r → filled'.Avoids id r :=
    fun r hr => htree.avoids_child (hf.reaches hroot) hr
  obtain ⟨hrest, hsame⟩ := foldlM_set (fun _ _ _ tree hn hid ha h =>
      normalizeWithin_set (body.withoutLeaving b₁) tree hn hid ha h) htree hid'
    (fun r hr => ⟨(hladders r hr).2, havoids r (hladders r hr).1⟩) hfold
  obtain ⟨b', hb', hbf'⟩ := hfa.old hb
  rw [hsame, hb₁, Except.ok.injEq] at hb'
  subst hb'
  refine ⟨b₁, hsame.trans hb₁, hbf', ?_⟩
  have hdepth : (body.set id (body.withoutLeaving b)).maxDepth = body.size + 1 := by simp [maxDepth]
  rw [normalize, hdepth, normalizeWithin, hfill₁, ok_bind,
    rungs_withoutLeaving tree hf.toFilled hb hb₁ havoids halt, hrungs, ok_bind, hrest]

end Body

namespace Scanner

variable {s s' : Scanner} {body after : Body} {home id : BlockId}

/-- `p` takes out of `l` the conditionals that leave the block, and none of them has an alternative.
The branches and ladders below the others are the same in both bodies. -/
structure Thins (body body' : Body) (p : Statement → Bool) (l : List Statement) : Prop where
  other : ∀ t ∈ l, t.conditional? = none → p t = true
  leaves : ∀ c e, Statement.conditional c ∈ l → exits body c = .ok e →
    p (.conditional c) = !e ∧ (e = true → c.elseBranch = none) ∧ exits body' c = .ok e
  ladders : ∀ c alternative, Statement.conditional c ∈ l → c.elseBranch = some alternative →
    resume body' alternative = resume body alternative

theorem Thins.tail {body' : Body} {p : Statement → Bool} {t : Statement} {l : List Statement}
    (h : Thins body body' p (t :: l)) : Thins body body' p l where
  other u hu := h.other u (List.mem_cons_of_mem t hu)
  leaves c e hc := h.leaves c e (List.mem_cons_of_mem t hc)
  ladders c x hc := h.ladders c x (List.mem_cons_of_mem t hc)

theorem close_congr (hlength : s.minLength = s'.minLength) (home : BlockId) (run : List Member) :
    s.close home run = s'.close home run := by
  unfold close
  simp only [hlength]

/-- Without the conditionals that leave the block a list of statements gives, under any policy, the
chains that it gives under the transparent policy. -/
theorem Yields.without {body' : Body} {p : Statement → Bool} {run : List Member}
    {l : List Statement} {chains : List Chain} (hy : s.Yields body home run l chains)
    (hpolicy : s.policy = .transparent) (hlength : s.minLength = s'.minLength)
    (hthins : Thins body body' p l) : s'.Yields body' home run (l.filter p) chains := by
  induction hy with
  | done =>
    rw [close_congr hlength]
    exact .done
  | comment _ ih =>
    rw [List.filter_cons_of_pos (hthins.other _ List.mem_cons_self rfl)]
    exact .comment (ih hthins.tail)
  | barrier _ hp =>
    rw [hpolicy] at hp
    cases hp
  | @single run c rest chains e he _ hnone _ ih =>
    obtain ⟨hp, -, he'⟩ := hthins.leaves c e List.mem_cons_self he
    cases e with
    | true =>
      rw [List.filter_cons_of_neg (by simp [hp])]
      exact ih hthins.tail
    | false =>
      rw [List.filter_cons_of_pos hp]
      exact .single he' (by simp) hnone (ih hthins.tail)
  | @ladder run next c alternative rest chains e he _ hsome hnext _ ih =>
    obtain ⟨hp, hnone, he'⟩ := hthins.leaves c e List.mem_cons_self he
    cases e with
    | true =>
      rw [hnone rfl] at hsome
      cases hsome
    | false =>
      rw [List.filter_cons_of_pos hp, close_congr hlength]
      refine .ladder he' (by simp) hsome ?_ (ih hthins.tail)
      rw [hthins.ladders c alternative List.mem_cons_self hsome, hnext]
  | other hcomment hcond _ ih =>
    rw [List.filter_cons_of_pos (hthins.other _ List.mem_cons_self hcond), close_congr hlength]
    exact .other hcomment hcond (ih hthins.tail)

/-- The transparent policy scans a block as any policy scans it without the conditionals that leave
it, when none of them has an alternative. -/
theorem scan_withoutLeaving {b : Block} {chains : List Chain} (tree : body.TreeShaped)
    (hroot : body.Reaches Body.root id) (hpolicy : s.policy = .transparent)
    (hlength : s.minLength = s'.minLength) (hb : body.block id = .ok b)
    (halt : ∀ c, Statement.conditional c ∈ b.statements → body.leaves c = true →
      c.elseBranch = none) (h : s.scan body id = .ok (after, chains)) :
    ∃ rest, s'.scan (body.set id (body.withoutLeaving b)) id = .ok (rest, chains) := by
  have hnests := tree.nests_root.of_reaches hroot
  obtain ⟨after', chains', hscan, hf, htree, -, b₁, hb₁, hy⟩ :=
    exists_scan (s := s) tree hnests (Nat.le_refl _)
  rw [h, Except.ok.injEq, Prod.mk.injEq] at hscan
  obtain ⟨rfl, rfl⟩ := hscan
  have hnormal : body.normalize id = .ok after := (scan_eq_ok.1 h).1
  obtain ⟨b', hb', hbf, hwithout⟩ := Body.normalize_withoutLeaving tree hroot hb halt hnormal
  obtain rfl := Body.block_unique hb₁ hb'
  have hid : id < after.size := Body.lt_size_of_block_eq_ok hb₁
  have havoids : ∀ t ∈ b₁.statements, ∀ y ∈ t.childBlocks, after.Avoids id y := by
    intro t ht y hy
    refine htree.avoids_child (hf.reaches hroot) ⟨b₁, hb₁, List.mem_flatMap.2 ⟨t, ht, hy⟩⟩
  refine ⟨_, scan_eq_ok.2 ⟨hwithout, body.withoutLeaving b₁, Body.block_set_self _ hid,
    hy.without hpolicy hlength ⟨fun t _ hcond => ?_, fun c e hc he => ?_, fun c x hc he => ?_⟩⟩⟩
  · simp [Body.stays, hcond]
  · obtain ⟨t, ht, htc⟩ := forall₂_exists_left hbf.1 hc
    obtain ⟨c₀, rfl, -, helse, -⟩ := htc.conditional_right
    obtain ⟨hafter, hbefore⟩ := Body.leaves_of_filled hf hb tree ht htc
    have hleaves : body.leaves c = e := by
      rw [hbefore, ← hafter, Body.leaves_of_exits he]
    refine ⟨by rw [Body.stays_conditional, hleaves], fun htrue => ?_, ?_⟩
    · rw [helse]
      exact halt c₀ ht (by rw [← hbefore, hleaves, htrue])
    · rw [Body.exits_set, he]
      exact fun t ht => (havoids _ hc t (by simp [ht])).ne
  · exact Body.resume_set _ _ (havoids _ hc x (by simp [he]))

end Scanner

end BranchExclusion
