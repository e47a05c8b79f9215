import BranchExclusion.Proofs.Chain.Scan

/-!
# The members of chains

A member of a chain is a conditional of the home block or the last rung of a ladder below one.

* `Scanner.Yields.sublist_offers`: the members of the chains of a block, in order, are among the
  conditionals that its statements offer;
* `Body.Adopts`: the members that a block can have, and `Body.adopts_unique`: two blocks that are no
  rungs of ladders have no branch of a member in common;
* `Scanner.Yields.length_members_le`: a block with a chain has two conditionals of its own, so it is
  no rung of a ladder.
-/

namespace BranchExclusion

/-- The conditionals among the statements of the block. -/
def Block.conditionals (b : Block) : List Conditional :=
  b.statements.filterMap Statement.conditional?

theorem Block.conditionals_of_singleConditional? {b : Block} {c : Conditional}
    (h : b.singleConditional? = some c) : b.conditionals = [c] := by
  -- comments are no conditionals
  have skip : ∀ l : List Statement, (l.filter fun s => !s.isComment).filterMap
      Statement.conditional? = l.filterMap Statement.conditional? := by
    intro l
    induction l with
    | nil => rfl
    | cons t l ih =>
      by_cases ht : t.isComment = true
      · have hn : t.conditional? = none := by cases t <;> first | rfl | cases ht
        rw [List.filter_cons_of_neg (by simp [ht]), List.filterMap_cons_none hn, ih]
      · rw [List.filter_cons_of_pos (by simp [ht]), List.filterMap_cons, List.filterMap_cons, ih]
  rw [singleConditional?_eq_some, significant] at h
  rw [conditionals, ← skip, h]
  rfl

/-- The members that a statement can give to chains of its block. -/
def Body.offers (body : Body) : Statement → List Member
  | .conditional c => (Member.of? c).toList ++
      c.elseBranch.elim [] fun x => (Scanner.resume body x).toOption.getD []
  | _ => []

namespace Scanner

variable {s : Scanner} {body : Body} {home : BlockId} {run : List Member} {l : List Statement}
  {chains : List Chain}

theorem members_close : ((s.close home run).flatMap Chain.members).Sublist run := by
  unfold close
  split
  · simp
  · simp

theorem extend_sublist (run : List Member) (e : Bool) (c : Conditional) :
    (extend run e c).Sublist (run ++ (Member.of? c).toList) := by
  unfold extend
  split
  · exact List.sublist_append_left _ _
  · exact List.Sublist.refl _

namespace Yields

/-- The members of the chains are offered by the open run and the statements, in order. -/
theorem sublist_offers (h : s.Yields body home run l chains) :
    (chains.flatMap Chain.members).Sublist (run ++ l.flatMap body.offers) := by
  induction h with
  | done => simpa using members_close
  | comment _ ih => simpa [Body.offers] using ih
  | barrier _ _ _ ih =>
    rw [List.flatMap_append, List.flatMap_cons]
    exact members_close.append (ih.trans (List.sublist_append_right _ _))
  | @single run c rest chains e _ _ hn _ ih =>
    rw [List.flatMap_cons, ← List.append_assoc]
    refine ih.trans (List.Sublist.append ?_ (List.Sublist.refl _))
    simpa [Body.offers, hn] using extend_sublist run e c
  | @ladder run next c alternative rest chains e _ _ halt hnext _ ih =>
    have hoffers : body.offers (.conditional c) = (Member.of? c).toList ++ next := by
      simp [Body.offers, halt, hnext, Except.toOption]
    rw [List.flatMap_append, List.flatMap_cons, hoffers, List.append_assoc, ← List.append_assoc]
    exact (members_close.trans (extend_sublist run e c)).append ih
  | other _ _ _ ih =>
    rw [List.flatMap_append, List.flatMap_cons]
    exact members_close.append (ih.trans (List.sublist_append_right _ _))

theorem home_eq (h : s.Yields body home run l chains) {c : Chain} (hc : c ∈ chains) :
    c.home = home := by
  have close : ∀ {run : List Member}, c ∈ s.close home run → c.home = home := fun h =>
    (length_ge_of_mem_close h).1
  induction h with
  | done => exact close hc
  | comment _ ih => exact ih hc
  | single _ _ _ _ ih => exact ih hc
  | barrier _ _ _ ih => exact (List.mem_append.1 hc).elim close ih
  | ladder _ _ _ _ _ ih => exact (List.mem_append.1 hc).elim close ih
  | other _ _ _ ih => exact (List.mem_append.1 hc).elim close ih

/-- A chain is no longer than the open run and the conditionals among the statements. -/
theorem length_members_le (h : s.Yields body home run l chains) {c : Chain} (hc : c ∈ chains) :
    c.members.length ≤ run.length + (l.filterMap Statement.conditional?).length := by
  have close : ∀ {run : List Member}, c ∈ s.close home run → c.members.length ≤ run.length :=
    fun h => Nat.le_of_eq (congrArg List.length (length_ge_of_mem_close h).2.1)
  have extended : ∀ (run : List Member) (e : Bool) (d : Conditional),
      (extend run e d).length ≤ run.length + 1 := by
    intro run e d
    refine (extend_sublist run e d).length_le.trans ?_
    cases hm : Member.of? d <;> simp
  induction h with
  | done => exact (close hc).trans (by omega)
  | comment _ ih => exact ih hc
  | @barrier run d rest chains _ _ _ ih =>
    have hd : Statement.conditional? (.conditional d) = some d := rfl
    rw [List.filterMap_cons_some hd, List.length_cons]
    rcases List.mem_append.1 hc with hc | hc
    · have := close hc
      omega
    · have := ih hc
      simp only [List.length_nil] at this
      omega
  | @single run d rest chains e _ _ _ _ ih =>
    have hd : Statement.conditional? (.conditional d) = some d := rfl
    rw [List.filterMap_cons_some hd, List.length_cons]
    have := ih hc
    have := extended run e d
    omega
  | @ladder run next d alternative rest chains e _ _ _ hnext _ ih =>
    have hd : Statement.conditional? (.conditional d) = some d := rfl
    rw [List.filterMap_cons_some hd, List.length_cons]
    rcases List.mem_append.1 hc with hc | hc
    · have := close hc
      have := extended run e d
      omega
    · -- the run that starts at the end of the ladder replaces the conditional above the ladder
      have := ih hc
      have hone : next.length ≤ 1 := by
        obtain ⟨x, -, hret⟩ := bind_eq_ok.1 hnext
        cases hret
        cases x.bind Member.of? <;> simp
      omega
  | @other run t rest chains _ hn _ ih =>
    rw [List.filterMap_cons_none hn]
    rcases List.mem_append.1 hc with hc | hc
    · have := close hc
      omega
    · have := ih hc
      simp only [List.length_nil] at this
      omega

end Yields

end Scanner

theorem Member.of?_eq_some {c : Conditional} {m : Member} :
    Member.of? c = some m ↔ c.thenBranch = some m.thenBranch ∧ c.line = m.line := by
  cases h : c.thenBranch with
  | none => simp [Member.of?, h]
  | some t =>
    simp only [Member.of?, h, Option.map_some, Option.some.injEq]
    constructor
    · rintro rfl
      exact ⟨rfl, rfl⟩
    · rintro ⟨rfl, hl⟩
      rw [hl]

namespace Body

variable {body : Body} {home home' id : BlockId} {m m' : Member}

/-- `m` is a conditional of block `home` or of the ladders below it. -/
def Adopts (body : Body) (home : BlockId) (m : Member) : Prop :=
  ∃ r b c, Relation.ReflTransGen body.IsRung home r ∧ body.block r = .ok b ∧
    Statement.conditional c ∈ b.statements ∧ Member.of? c = some m

theorem isChild_of_member {b : Block} {c : Conditional} (hb : body.block id = .ok b)
    (hc : Statement.conditional c ∈ b.statements) (hm : Member.of? c = some m) :
    body.IsChild id m.thenBranch := by
  refine ⟨b, hb, List.mem_flatMap.2 ⟨_, hc, ?_⟩⟩
  simp [(Member.of?_eq_some.1 hm).1]

theorem reflTransGen_isChild (h : Relation.ReflTransGen body.IsRung home id) :
    Relation.ReflTransGen body.IsChild home id :=
  Relation.ReflTransGen.mono (fun _ _ (hr : body.IsRung _ _) => hr.isChild) _ _ h

/-- The branch of a member lies below the block that adopts it. -/
theorem Adopts.below (h : body.Adopts home m) :
    Relation.TransGen body.IsChild home m.thenBranch := by
  obtain ⟨r, b, c, hr, hb, hc, hm⟩ := h
  exact Relation.TransGen.tail' (reflTransGen_isChild hr) (isChild_of_member hb hc hm)

theorem Adopts.exists_owner (h : body.Adopts home m) : ∃ p, body.IsChild p m.thenBranch := by
  obtain ⟨r, b, c, -, hb, hc, hm⟩ := h
  exact ⟨r, isChild_of_member hb hc hm⟩

/-- A branch lies below a conditional of the block that adopts it. -/
theorem Adopts.exists_conditional (h : body.Adopts home m) : ∃ b c x, body.block home = .ok b ∧
    Statement.conditional c ∈ b.statements ∧ x ∈ (Statement.conditional c).childBlocks ∧
      body.Reaches x m.thenBranch := by
  obtain ⟨r, b, c, hr, hb, hc, hm⟩ := h
  rcases Relation.ReflTransGen.cases_head_iff.1 hr with rfl | ⟨x, hx, hr⟩
  · exact ⟨b, c, m.thenBranch, hb, hc, by simp [(Member.of?_eq_some.1 hm).1], .self⟩
  · obtain ⟨b', d, -, -, hb', hd, he, -, -⟩ := hx
    refine ⟨b', d, x, hb', hd, by simp [he], .child ?_ (isChild_of_member hb hc hm)⟩
    exact reaches_iff.2 (reflTransGen_isChild hr)

theorem Ladder.exists_single {rung : Conditional} (h : body.Ladder id rung) :
    ∃ b c, body.block id = .ok b ∧ b.singleConditional? = some c := by
  cases h with
  | last hb hc _ => exact ⟨_, _, hb, hc⟩
  | step hb hc _ _ => exact ⟨_, _, hb, hc⟩

theorem Ladder.exists_rung {rung : Conditional} (h : body.Ladder id rung) :
    ∃ r b, Relation.ReflTransGen body.IsRung id r ∧ body.block r = .ok b ∧
      Statement.conditional rung ∈ b.statements := by
  induction h with
  | last hb hc _ => exact ⟨_, _, .refl, hb, Block.mem_of_singleConditional? hc⟩
  | @step id next b rung top hb hc he hl ih =>
    obtain ⟨r, b', hr, hb', htop⟩ := ih
    obtain ⟨b₁, c₁, hb₁, hc₁⟩ := hl.exists_single
    have hnext : body.IsRung id next :=
      ⟨b, rung, b₁, c₁, hb, Block.mem_of_singleConditional? hc, he, hb₁, hc₁⟩
    exact ⟨r, b', hr.head hnext, hb', htop⟩

theorem exists_resume (body : Body) (alternative : BlockId) : ∃ m : Option Member,
    (Scanner.resume body alternative).toOption.getD [] = m.toList := by
  unfold Scanner.resume
  cases body.ladderEnd alternative with
  | error e => exact ⟨none, rfl⟩
  | ok x => exact ⟨x.bind Member.of?, rfl⟩

theorem exists_ladder_of_mem_resume {alternative : BlockId}
    (h : m ∈ (Scanner.resume body alternative).toOption.getD []) :
    ∃ rung, body.Ladder alternative rung ∧ Member.of? rung = some m := by
  unfold Scanner.resume ladderEnd at h
  cases hx : body.ladderEndWithin body.maxDepth alternative with
  | error e =>
    rw [hx] at h
    cases h
  | ok x =>
    rw [hx] at h
    have hm : x.bind Member.of? = some m := by simpa [Except.toOption] using h
    obtain ⟨rung, rfl, hm⟩ := Option.bind_eq_some_iff.1 hm
    exact ⟨rung, ladder_of_ladderEndWithin hx, hm⟩

theorem adopts_of_mem_offers {b : Block} (hb : body.block home = .ok b) {t : Statement}
    (ht : t ∈ b.statements) (hm : m ∈ body.offers t) : body.Adopts home m := by
  cases t with
  | conditional c =>
    rcases List.mem_append.1 hm with hm | hm
    · exact ⟨home, b, c, .refl, hb, ht, by simpa using hm⟩
    · cases halt : c.elseBranch with
      | none =>
        rw [halt] at hm
        cases hm
      | some x =>
        rw [halt] at hm
        obtain ⟨rung, hl, hm⟩ := exists_ladder_of_mem_resume hm
        obtain ⟨r, b', hr, hb', hrung⟩ := hl.exists_rung
        obtain ⟨b₁, c₁, hb₁, hc₁⟩ := hl.exists_single
        have hx : body.IsRung home x := ⟨b, c, b₁, c₁, hb, ht, halt, hb₁, hc₁⟩
        exact ⟨r, b', rung, hr.head hx, hb', hrung, hm⟩
  | _ => cases hm

/-- What a statement offers lies, in order, among the blocks below the statement. -/
theorem sublist_below {n : ℕ} {t : Statement} {lists : List (List BlockId)}
    (h : List.Forall₂ (fun c l => body.below n c = .ok l) t.childBlocks lists) :
    ((body.offers t).map Member.thenBranch).Sublist lists.flatten := by
  cases t with
  | conditional c =>
    obtain ⟨l₁, l₂, h₁, h₂, rfl⟩ := forall₂_append_left h
    rw [offers, List.map_append, List.flatten_append]
    refine List.Sublist.append ?_ ?_
    · cases ht : c.thenBranch with
      | none => simp [Member.of?, ht]
      | some x =>
        rw [ht] at h₁
        obtain ⟨l, -, hx, -, rfl⟩ := List.forall₂_cons_left_iff.1 h₁
        have hmem : x ∈ l := (mem_below hx).2 .self
        simpa [Member.of?, ht] using .inl hmem
    · cases halt : c.elseBranch with
      | none => exact List.nil_sublist _
      | some x =>
        rw [halt] at h₂
        obtain ⟨l, -, hx, -, rfl⟩ := List.forall₂_cons_left_iff.1 h₂
        obtain ⟨o, ho⟩ := exists_resume body x
        cases o with
        | none => simp [ho]
        | some m =>
          have hresume : m ∈ (Scanner.resume body x).toOption.getD [] := by simp [ho]
          obtain ⟨rung, hl, hm⟩ := exists_ladder_of_mem_resume hresume
          obtain ⟨r, b, hr, hb, hrung⟩ := hl.exists_rung
          have hmem : m.thenBranch ∈ l := by
            refine (mem_below hx).2 (.child ?_ (isChild_of_member hb hrung hm))
            exact reaches_iff.2 (reflTransGen_isChild hr)
          simpa [ho] using .inl hmem
  | _ => exact List.nil_sublist _

/-- Going up from a rung through rungs ends at one block only. -/
theorem eq_of_reflTransGen_isRung (tree : body.TreeShaped) (h : ∀ p, ¬ body.IsRung p home)
    (h' : ∀ p, ¬ body.IsRung p home') (hr : Relation.ReflTransGen body.IsRung home id)
    (hr' : Relation.ReflTransGen body.IsRung home' id) : home = home' := by
  have unique : Relator.RightUnique (Function.swap body.IsRung) :=
    fun _ _ _ hp hq => tree.owner_unique hp.isChild hq.isChild
  rw [← Relation.reflTransGen_swap] at hr hr'
  rcases Relation.ReflTransGen.total_of_right_unique unique hr hr' with hup | hup
  · rcases Relation.ReflTransGen.cases_head_iff.1 hup with heq | ⟨p, hp, -⟩
    · exact heq
    · exact absurd hp (h p)
  · rcases Relation.ReflTransGen.cases_head_iff.1 hup with heq | ⟨p, hp, -⟩
    · exact heq.symm
    · exact absurd hp (h' p)

/-- Two blocks that are no rungs adopt no branch in common. -/
theorem adopts_unique (tree : body.TreeShaped) (h : ∀ p, ¬ body.IsRung p home)
    (h' : ∀ p, ¬ body.IsRung p home') (hm : body.Adopts home m) (hm' : body.Adopts home' m')
    (heq : m.thenBranch = m'.thenBranch) : home = home' := by
  obtain ⟨r, b, c, hr, hb, hc, hcm⟩ := hm
  obtain ⟨r', b', c', hr', hb', hc', hcm'⟩ := hm'
  have hchild := isChild_of_member hb hc hcm
  have hchild' := isChild_of_member hb' hc' hcm'
  rw [heq] at hchild
  rw [tree.owner_unique hchild hchild'] at hr
  exact eq_of_reflTransGen_isRung tree h h' hr hr'

end Body

end BranchExclusion
