import BranchExclusion.Chain.Scan
import BranchExclusion.Proofs.Chain.Normal

/-!
# Scanning a block

* `Scanner.Yields`: what a scan of a list of statements gives, one rule for each kind of statement,
  and `Scanner.chainsFrom_eq_ok`: the scan is this relation;
* `Scanner.Finds`: the chains of a block of a normal body;
* `exists_scan`: a scan succeeds, and gives the chains of the body that it leaves;
* `Scanner.Finds.filled`: these chains stay when branches are filled in elsewhere.
-/

namespace BranchExclusion

theorem Block.mem_of_singleConditional? {b : Block} {c : Conditional}
    (h : b.singleConditional? = some c) : Statement.conditional c ∈ b.statements := by
  rw [singleConditional?_eq_some] at h
  exact List.mem_of_mem_filter (h ▸ List.mem_singleton_self _ : _ ∈ b.significant)

namespace Body

variable {body after : Body} {id : BlockId} {rung : Conditional}

/-! ### Ladders -/

theorem isChild_of_singleConditional? {b : Block} {next : BlockId} (hb : body.block id = .ok b)
    (hc : b.singleConditional? = some rung) (he : rung.elseBranch = some next) :
    body.IsChild id next := by
  refine ⟨b, hb, List.mem_flatMap.2 ⟨_, Block.mem_of_singleConditional? hc, ?_⟩⟩
  simp [he]

theorem Nests.exists_ladderEndWithin {n : ℕ} (h : body.Nests n id) :
    ∃ rung, body.ladderEndWithin n id = .ok rung := by
  induction n generalizing id with
  | zero => exact h.elim
  | succ n ih =>
    have ⟨b, hb, _⟩ := h
    rw [ladderEndWithin, hb, ok_bind]
    split
    · exact ⟨none, rfl⟩
    · next rung hc =>
      split
      · exact ⟨some rung, rfl⟩
      · next next he => exact ih (h.of_isChild (isChild_of_singleConditional? hb hc he))

theorem ladder_of_ladderEndWithin {n : ℕ} (h : body.ladderEndWithin n id = .ok (some rung)) :
    body.Ladder id rung := by
  induction n generalizing id with
  | zero => cases h
  | succ n ih =>
    rw [ladderEndWithin, bind_eq_ok] at h
    obtain ⟨b, hb, h⟩ := h
    split at h
    · cases h
    · next top hc =>
      split at h
      · next he =>
        cases h
        exact .last hb hc he
      · next next he => exact .step hb hc he (ih h)

/-- Where the ladder has all its branches, its end is the same after others were filled in. -/
theorem Filled.ladderEndWithin (h : body.Filled after) {n m : ℕ} (hle : n ≤ m)
    (hn : ∀ b c, body.block id = .ok b → b.singleConditional? = some c → body.Normal id)
    {x : Option Conditional} (hx : body.ladderEndWithin n id = .ok x) :
    after.ladderEndWithin m id = .ok x := by
  induction n generalizing id m with
  | zero => cases hx
  | succ n ih =>
    obtain ⟨m, rfl⟩ := Nat.exists_eq_add_of_le' (Nat.zero_lt_of_lt hle)
    simp only [Body.ladderEndWithin, bind_eq_ok] at hx ⊢
    obtain ⟨b, hb, hx⟩ := hx
    cases hc : b.singleConditional? with
    | none =>
      obtain ⟨b', hb', hf⟩ := h.old hb
      rw [hc] at hx
      exact ⟨b', hb', by rw [hf.singleConditional?_eq_none hc]; exact hx⟩
    | some rung =>
      -- the block of a rung has all its branches, so it stays as it is
      have hnormal := hn b rung hb hc
      refine ⟨b, h.block_eq hb ((hnormal id .refl).not_lacksBranch hb), ?_⟩
      rw [hc] at hx ⊢
      simp only at hx ⊢
      cases he : rung.elseBranch with
      | none => rw [he] at hx; exact hx
      | some next =>
        rw [he] at hx
        refine ih (Nat.le_of_succ_le_succ hle) (fun b₁ c₁ hb₁ hc₁ r hr => ?_) hx
        have hrung : body.IsRung id next :=
          ⟨b, rung, b₁, c₁, hb, Block.mem_of_singleConditional? hc, he, hb₁, hc₁⟩
        exact hnormal r (.head hrung hr)

end Body

namespace Scanner

variable {s : Scanner} {body after : Body} {home id : BlockId}

/-! ### Statement by statement -/

/-- The open run behind a conditional whose branch leaves the block or does not. -/
def extend (run : List Member) (exits : Bool) (c : Conditional) : List Member :=
  if exits then run else run ++ (Member.of? c).toList

/-- Scanning `statements` with `run` open gives these chains. -/
inductive Yields (s : Scanner) (body : Body) (home : BlockId) :
    List Member → List Statement → List Chain → Prop
  | done {run : List Member} : Yields s body home run [] (s.close home run)
  | comment {run : List Member} {text : String} {span : Span} {rest : List Statement}
      {chains : List Chain} : Yields s body home run rest chains →
      Yields s body home run (.comment text span :: rest) chains
  | barrier {run : List Member} {c : Conditional} {rest : List Statement} {chains : List Chain} :
      exits body c = .ok true → s.policy = .barrier → Yields s body home [] rest chains →
      Yields s body home run (.conditional c :: rest) (s.close home run ++ chains)
  | single {run : List Member} {c : Conditional} {rest : List Statement} {chains : List Chain}
      {e : Bool} : exits body c = .ok e → (e = true → s.policy ≠ .barrier) → c.elseBranch = none →
      Yields s body home (extend run e c) rest chains →
      Yields s body home run (.conditional c :: rest) chains
  | ladder {run next : List Member} {c : Conditional} {alternative : BlockId}
      {rest : List Statement} {chains : List Chain} {e : Bool} : exits body c = .ok e →
      (e = true → s.policy ≠ .barrier) → c.elseBranch = some alternative →
      resume body alternative = .ok next → Yields s body home next rest chains →
      Yields s body home run (.conditional c :: rest) (s.close home (extend run e c) ++ chains)
  | other {run : List Member} {t : Statement} {rest : List Statement} {chains : List Chain} :
      t.isComment = false → t.conditional? = none → Yields s body home [] rest chains →
      Yields s body home run (t :: rest) (s.close home run ++ chains)

theorem chainsFrom_conditional (run : List Member) (c : Conditional) (rest : List Statement) :
    s.chainsFrom body home run (.conditional c :: rest) = (do
      let e ← exits body c
      if e = true ∧ s.policy = .barrier then
        return s.close home run ++ (← s.chainsFrom body home [] rest)
      else match c.elseBranch with
        | none => s.chainsFrom body home (extend run e c) rest
        | some alternative =>
          return s.close home (extend run e c) ++
            (← s.chainsFrom body home (← resume body alternative) rest)) := by
  rw [chainsFrom]
  cases exits body c with
  | error f => rfl
  | ok e => cases e <;> cases s.policy <;> rfl

theorem chainsFrom_other {t : Statement} (run : List Member) (rest : List Statement)
    (hc : t.isComment = false) (hn : t.conditional? = none) :
    s.chainsFrom body home run (t :: rest) =
      (do return s.close home run ++ (← s.chainsFrom body home [] rest)) := by
  cases t with
  | comment => cases hc
  | conditional c => cases hn
  | _ => rfl

/-- The scan gives exactly the chains of the rules. -/
theorem chainsFrom_eq_ok {run : List Member} {l : List Statement} {chains : List Chain} :
    s.chainsFrom body home run l = .ok chains ↔ s.Yields body home run l chains := by
  constructor
  · intro h
    induction l generalizing run chains with
    | nil =>
      cases h
      exact .done
    | cons t rest ih =>
      by_cases hcomment : t.isComment = true
      · cases t <;> cases hcomment
        exact .comment (ih h)
      cases hcond : t.conditional? with
      | none =>
        rw [chainsFrom_other run rest (by simpa using hcomment) hcond, bind_eq_ok] at h
        obtain ⟨chains, hr, h⟩ := h
        cases h
        exact .other (by simpa using hcomment) hcond (ih hr)
      | some c =>
        rw [Statement.conditional?_eq_some] at hcond
        subst hcond
        rw [chainsFrom_conditional, bind_eq_ok] at h
        obtain ⟨e, he, h⟩ := h
        split at h
        · next hb =>
          rw [bind_eq_ok] at h
          obtain ⟨chains, hr, h⟩ := h
          cases h
          exact .barrier (hb.1 ▸ he) hb.2 (ih hr)
        · next hb =>
          have hpolicy : e = true → s.policy ≠ .barrier := fun he' hp => hb ⟨he', hp⟩
          split at h
          · next hnone => exact .single he hpolicy hnone (ih h)
          · next alternative hsome =>
            rw [bind_eq_ok] at h
            obtain ⟨next, hnext, h⟩ := h
            rw [bind_eq_ok] at h
            obtain ⟨chains, hr, h⟩ := h
            cases h
            exact .ladder he hpolicy hsome hnext (ih hr)
  · intro h
    induction h with
    | done => rfl
    | comment _ ih => exact ih
    | barrier he hp _ ih => simp [chainsFrom_conditional, he, hp, ih]
    | @single run c rest chains e he hp hn _ ih =>
      have hb : ¬ (e = true ∧ s.policy = .barrier) := fun h => hp h.1 h.2
      simp only [chainsFrom_conditional, he, ok_bind, if_neg hb, hn, ih]
    | @ladder run next c alternative rest chains e he hp hn hnext _ ih =>
      have hb : ¬ (e = true ∧ s.policy = .barrier) := fun h => hp h.1 h.2
      simp only [chainsFrom_conditional, he, ok_bind, if_neg hb, hn, hnext, ih, pure_eq_ok]
    | other hc hn _ ih => simp [chainsFrom_other _ _ hc hn, ih]

/-! ### A block -/

/-- Every block that the statements mention exists, and every ladder below them can be followed. -/
theorem exists_yields {l : List Statement} {n : ℕ} (hn : ∀ t ∈ l, ∀ x ∈ t.childBlocks,
    body.Nests n x) (hle : n ≤ body.maxDepth) (run : List Member) :
    ∃ chains, s.Yields body home run l chains := by
  induction l generalizing run with
  | nil => exact ⟨_, .done⟩
  | cons t rest ih =>
    have hrest := ih fun u hu => hn u (List.mem_cons_of_mem t hu)
    by_cases hcomment : t.isComment = true
    · cases t <;> cases hcomment
      obtain ⟨chains, hr⟩ := hrest run
      exact ⟨_, .comment hr⟩
    cases hcond : t.conditional? with
    | none =>
      obtain ⟨chains, hr⟩ := hrest []
      exact ⟨_, .other (by simpa using hcomment) hcond hr⟩
    | some c =>
      rw [Statement.conditional?_eq_some] at hcond
      subst hcond
      have hchild := hn (.conditional c) List.mem_cons_self
      obtain ⟨e, he⟩ : ∃ e, exits body c = .ok e := by
        unfold exits
        split
        · exact ⟨false, rfl⟩
        · next t ht =>
          obtain ⟨b, hb⟩ := (hchild t (by simp [ht])).exists_block
          exact ⟨b.exitsDirectly, by rw [hb]; rfl⟩
      by_cases hb : e = true ∧ s.policy = .barrier
      · obtain ⟨chains, hr⟩ := hrest []
        exact ⟨_, .barrier (hb.1 ▸ he) hb.2 hr⟩
      have hpolicy : e = true → s.policy ≠ .barrier := fun he' hp => hb ⟨he', hp⟩
      cases halt : c.elseBranch with
      | none =>
        obtain ⟨chains, hr⟩ := hrest (extend run e c)
        exact ⟨_, .single he hpolicy halt hr⟩
      | some alternative =>
        obtain ⟨x, hx⟩ := ((hchild alternative (by simp [halt])).mono hle).exists_ladderEndWithin
        have hresume : resume body alternative = .ok (x.bind Member.of?).toList := by
          rw [resume, Body.ladderEnd, hx]
          rfl
        obtain ⟨chains, hr⟩ := hrest (x.bind Member.of?).toList
        exact ⟨_, .ladder he hpolicy halt hresume hr⟩

/-- The chains of block `id`, which is made normal already. -/
def Finds (s : Scanner) (body : Body) (id : BlockId) (chains : List Chain) : Prop :=
  ∃ b, body.block id = .ok b ∧ s.Yields body id [] b.statements chains

theorem scan_eq_ok {chains : List Chain} : s.scan body id = .ok (after, chains) ↔
    body.normalize id = .ok after ∧ s.Finds after id chains := by
  simp only [scan, Finds, bind_eq_ok, pure_eq_ok, Except.ok.injEq, Prod.mk.injEq]
  constructor
  · rintro ⟨after', hafter, b, hb, chains', hc, rfl, rfl⟩
    exact ⟨hafter, b, hb, chainsFrom_eq_ok.1 hc⟩
  · rintro ⟨hafter, b, hb, hy⟩
    exact ⟨after, hafter, b, hb, chains, chainsFrom_eq_ok.2 hy, rfl, rfl⟩

/-- A scan of a tree-shaped body succeeds. -/
theorem exists_scan (tree : body.TreeShaped) {n : ℕ} (hn : body.Nests n id)
    (hle : n ≤ body.maxDepth) : ∃ after chains, s.scan body id = .ok (after, chains) ∧
      body.Filled after ∧ after.TreeShaped ∧ after.Normal id ∧ s.Finds after id chains := by
  obtain ⟨after, hafter, hf, htree, hnormal⟩ := Body.exists_normalize tree hn hle
  have hn' := hf.nests hn
  have hle' : n ≤ after.maxDepth := Nat.le_trans hle (Nat.succ_le_succ hf.size_le)
  obtain ⟨b, hb⟩ := hn'.exists_block
  obtain ⟨chains, hc⟩ := exists_yields (l := b.statements)
    (fun t ht x hx => hn'.of_reaches (.child .self ⟨b, hb, List.mem_flatMap.2 ⟨t, ht, hx⟩⟩)) hle' []
  refine ⟨after, chains, ?_, hf, htree, hnormal, b, hb, hc⟩
  rw [scan, hafter, ok_bind, hb, ok_bind, chainsFrom_eq_ok.2 hc]
  rfl

theorem exits_filled (h : body.Filled after) {c : Conditional} {e : Bool}
    (he : exits body c = .ok e) : exits after c = .ok e := by
  unfold exits at *
  split
  · next hn =>
    rw [hn] at he
    exact he
  · next t ht =>
    rw [ht] at he
    obtain ⟨b, hb, he⟩ := bind_eq_ok.1 he
    obtain ⟨b', hb', hf⟩ := h.old hb
    rw [hb', ok_bind, hf.exitsDirectly_eq]
    exact he

/-- The chains of a normal block stay when branches are filled in elsewhere. -/
theorem Finds.filled (h : body.Filled after) (hn : body.Normal id) {chains : List Chain}
    (hc : s.Finds body id chains) : s.Finds after id chains := by
  obtain ⟨b, hb, hy⟩ := hc
  refine ⟨b, h.block_eq hb ((hn id .refl).not_lacksBranch hb), ?_⟩
  have go : ∀ run l chains, l ⊆ b.statements → s.Yields body id run l chains →
      s.Yields after id run l chains := by
    intro run l chains hsub hy
    induction hy with
    | done => exact .done
    | comment _ ih => exact .comment (ih (List.subset_of_cons_subset hsub))
    | barrier he hp _ ih =>
      exact .barrier (exits_filled h he) hp (ih (List.subset_of_cons_subset hsub))
    | single he hp hn _ ih =>
      exact .single (exits_filled h he) hp hn (ih (List.subset_of_cons_subset hsub))
    | @ladder run next c alternative rest chains e he hp halt hnext _ ih =>
      refine .ladder (exits_filled h he) hp halt ?_ (ih (List.subset_of_cons_subset hsub))
      obtain ⟨x, hx, hret⟩ := bind_eq_ok.1 hnext
      have hx' := h.ladderEndWithin (m := after.maxDepth) (Nat.succ_le_succ h.size_le)
        (fun b₁ c₁ hb₁ hc₁ r hr => hn r (.head
          ⟨b, c, b₁, c₁, hb, hsub List.mem_cons_self, halt, hb₁, hc₁⟩ hr)) hx
      exact bind_eq_ok.2 ⟨x, hx', hret⟩
    | other ht hn _ ih => exact .other ht hn (ih (List.subset_of_cons_subset hsub))
  exact go [] b.statements chains (List.Subset.refl _) hy

end Scanner

end BranchExclusion
