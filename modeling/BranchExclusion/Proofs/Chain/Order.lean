import BranchExclusion.Proofs.Body.Renaming
import BranchExclusion.Proofs.Method.Discovery

/-!
# The order of the scans

A scan fills in branches of its block and of the ladders below it, and so it changes what later scans
see. All the same, a block has one list of chains, whatever was scanned before.

* `Member.From`: the member that a conditional of a body makes, once its branch is there;
* `Chain.Same`: two chains of the same conditionals;
* `Scanner.same_of_yields`: where the branches were filled in in two ways, a list of statements gives
  the same chains;
* `Scanner.scanEach`: one scan after the other;
* `Scanner.scan_order_irrelevant`: the chains of a block and the body at the end do not depend on the
  order of the scans.
-/

namespace BranchExclusion

/-- Some block holds the conditional. -/
def Body.HoldsConditional (body : Body) (c : Conditional) : Prop :=
  ∃ p b, body.block p = .ok b ∧ Statement.conditional c ∈ b.statements

/-- The member is the one that the conditional makes. A branch that the conditional lacks was filled
in by a new block. -/
structure Member.From (body : Body) (c : Conditional) (m : Member) : Prop where
  line : m.line = c.line
  kept : ∀ t, c.thenBranch = some t → m.thenBranch = t
  filled : c.thenBranch = none → body.size ≤ m.thenBranch

/-- Two members that one conditional of the body makes. -/
def Member.Same (body : Body) (m m' : Member) : Prop :=
  ∃ c, body.HoldsConditional c ∧ m.From body c ∧ m'.From body c

/-- Two chains that the same conditionals of the body make. -/
structure Chain.Same (body : Body) (c c' : Chain) : Prop where
  home : c'.home = c.home
  members : List.Forall₂ (Member.Same body) c.members c'.members

/-- A conditional that was filled in makes the member of the conditional before. -/
theorem Statement.Filled.exists_member {New : BlockId → Prop} {body : Body} {c d : Conditional}
    (h : Statement.Filled New (.conditional c) (.conditional d))
    (hnew : ∀ x, New x → body.size ≤ x) (hd : d.thenBranch ≠ none) :
    ∃ m, Member.of? d = some m ∧ m.From body c := by
  cases h with
  | same =>
    obtain ⟨t, ht⟩ := Option.ne_none_iff_exists'.1 hd
    refine ⟨⟨c.line, t⟩, by rw [Member.of?, ht]; rfl, rfl, fun t' ht' => ?_, fun hn => ?_⟩
    · rw [ht] at ht'
      exact Option.some.inj ht'
    · exact absurd hn hd
  | branch _ t hc ht =>
    exact ⟨⟨c.line, t⟩, rfl, rfl, fun t' ht' => by simp [hc] at ht', fun _ => hnew t ht⟩

namespace Scanner

variable {s : Scanner} {body after₁ after₂ : Body} {home id : BlockId}

/-! ### Exits and ladders -/

/-- Filling in branches leaves open whether a conditional exits. -/
theorem exits_of_filled {after : Body} (tree : body.TreeShaped) (h : body.Filled after)
    {c d : Conditional} (hc : body.HoldsConditional c)
    (hcd : Statement.Filled (fun x => body.size ≤ x ∧ x < after.size) (.conditional c)
      (.conditional d)) {e : Bool} (he : exits after d = .ok e) : exits body c = .ok e := by
  cases hcd with
  | same =>
    obtain ⟨e', he'⟩ : ∃ e', exits body c = .ok e' := by
      unfold exits
      split
      · exact ⟨false, rfl⟩
      · next t ht =>
        obtain ⟨p, b, hb, hmem⟩ := hc
        have hchild : body.IsChild p t := ⟨b, hb, List.mem_flatMap.2 ⟨_, hmem, by simp [ht]⟩⟩
        obtain ⟨b', hb'⟩ := tree.exists_child hchild
        exact ⟨b'.exitsDirectly, by rw [hb']; rfl⟩
    rw [exits_filled h he', Except.ok.injEq] at he
    rw [he', he]
  | branch _ t hn ht =>
    -- the new block is empty
    obtain ⟨b, hb⟩ := Body.exists_block ht.2
    rw [exits] at he
    dsimp only at he
    rw [hb, h.new ht.1 hb] at he
    cases he
    rw [exits, hn]
    rfl

/-- The two ends of a ladder that was filled in in two ways. -/
theorem same_of_ladderEndWithin (tree : body.TreeShaped) (h₁ : body.Filled after₁)
    (h₂ : body.Filled after₂) {n₁ n₂ : ℕ} {b : Block} (hb : body.block id = .ok b)
    (hn₁ : b.singleConditional?.isSome → after₁.Normal id)
    (hn₂ : b.singleConditional?.isSome → after₂.Normal id) {x₁ x₂ : Option Conditional}
    (hx₁ : after₁.ladderEndWithin n₁ id = .ok x₁) (hx₂ : after₂.ladderEndWithin n₂ id = .ok x₂) :
    List.Forall₂ (Member.Same body) (x₁.bind Member.of?).toList (x₂.bind Member.of?).toList := by
  induction n₁ generalizing n₂ id b with
  | zero => cases hx₁
  | succ n₁ ih =>
    cases n₂ with
    | zero => cases hx₂
    | succ n₂ =>
      obtain ⟨b₁, hb₁, hf₁⟩ := h₁.old hb
      obtain ⟨b₂, hb₂, hf₂⟩ := h₂.old hb
      rw [Body.ladderEndWithin, hb₁, ok_bind] at hx₁
      rw [Body.ladderEndWithin, hb₂, ok_bind] at hx₂
      cases hc : b.singleConditional? with
      | none =>
        rw [hf₁.singleConditional?_eq_none hc] at hx₁
        rw [hf₂.singleConditional?_eq_none hc] at hx₂
        cases hx₁
        cases hx₂
        exact .nil
      | some c =>
        obtain ⟨c₁, hc₁, hs₁⟩ := hf₁.singleConditional?_eq_some hc
        obtain ⟨c₂, hc₂, hs₂⟩ := hf₂.singleConditional?_eq_some hc
        have hmem := Block.mem_of_singleConditional? hc
        have hmem₁ := Block.mem_of_singleConditional? hc₁
        have hmem₂ := Block.mem_of_singleConditional? hc₂
        have hnormal₁ := hn₁ (by rw [hc]; rfl)
        have hnormal₂ := hn₂ (by rw [hc]; rfl)
        obtain ⟨d₁, hd₁, he₁⟩ := hs₁.conditional_left
        obtain ⟨d₂, hd₂, he₂⟩ := hs₂.conditional_left
        cases hd₁
        cases hd₂
        rw [hc₁] at hx₁
        rw [hc₂] at hx₂
        dsimp only at hx₁ hx₂
        rw [he₁] at hx₁
        rw [he₂] at hx₂
        cases halt : c.elseBranch with
        | none =>
          rw [halt] at hx₁ hx₂
          cases hx₁
          cases hx₂
          -- both ladders end here, at the conditional that the one rung became
          have hthen₁ : c₁.thenBranch ≠ none := fun hn =>
            (hnormal₁ id .refl).not_lacksBranch hb₁ ⟨c₁, hmem₁, hn⟩
          have hthen₂ : c₂.thenBranch ≠ none := fun hn =>
            (hnormal₂ id .refl).not_lacksBranch hb₂ ⟨c₂, hmem₂, hn⟩
          obtain ⟨m₁, hm₁, hfrom₁⟩ := hs₁.exists_member (fun _ hx => hx.1) hthen₁
          obtain ⟨m₂, hm₂, hfrom₂⟩ := hs₂.exists_member (fun _ hx => hx.1) hthen₂
          rw [Option.bind_some, Option.bind_some, hm₁, hm₂]
          exact .cons ⟨c, ⟨id, b, hb, hmem⟩, hfrom₁, hfrom₂⟩ .nil
        | some next =>
          rw [halt] at hx₁ hx₂
          obtain ⟨b', hb'⟩ := tree.exists_child (Body.isChild_of_singleConditional? hb hc halt)
          have hnext : ∀ {after : Body}, body.Filled after → after.Normal id →
              b'.singleConditional?.isSome → after.Normal next := by
            intro after h hnormal hsome r hr
            obtain ⟨d, hd⟩ := Option.isSome_iff_exists.1 hsome
            have hrung : body.IsRung id next := ⟨b, c, b', d, hb, hmem, halt, hb', hd⟩
            rw [← h.isRung_eq tree] at hrung
            exact hnormal r (.head hrung hr)
          exact ih hb' (hnext h₁ hnormal₁) (hnext h₂ hnormal₂) hx₁ hx₂

/-- Behind a conditional with an alternative, the scan goes on with the same member. -/
theorem same_of_resume (tree : body.TreeShaped) (h₁ : body.Filled after₁) (h₂ : body.Filled after₂)
    {c : Conditional} (hc : body.HoldsConditional c) (halt : c.elseBranch = some id)
    (hn₁ : ∀ b, body.block id = .ok b → b.singleConditional?.isSome → after₁.Normal id)
    (hn₂ : ∀ b, body.block id = .ok b → b.singleConditional?.isSome → after₂.Normal id)
    {next₁ next₂ : List Member} (hr₁ : resume after₁ id = .ok next₁)
    (hr₂ : resume after₂ id = .ok next₂) : List.Forall₂ (Member.Same body) next₁ next₂ := by
  obtain ⟨p, b, hb, hmem⟩ := hc
  have hchild : body.IsChild p id := ⟨b, hb, List.mem_flatMap.2 ⟨_, hmem, by simp [halt]⟩⟩
  obtain ⟨b', hb'⟩ := tree.exists_child hchild
  obtain ⟨x₁, hend₁, hret₁⟩ := bind_eq_ok.1 hr₁
  obtain ⟨x₂, hend₂, hret₂⟩ := bind_eq_ok.1 hr₂
  cases hret₁
  cases hret₂
  exact same_of_ladderEndWithin tree h₁ h₂ hb' (hn₁ b' hb') (hn₂ b' hb') hend₁ hend₂

/-! ### A list of statements -/

theorem same_close (s : Scanner) (home : BlockId) {run₁ run₂ : List Member}
    (h : List.Forall₂ (Member.Same body) run₁ run₂) :
    List.Forall₂ (Chain.Same body) (s.close home run₁) (s.close home run₂) := by
  unfold close
  by_cases hlength : s.minLength ≤ run₁.length
  · rw [dif_pos hlength, dif_pos (h.length_eq ▸ hlength)]
    exact .cons ⟨rfl, h⟩ .nil
  · rw [dif_neg hlength, dif_neg (h.length_eq ▸ hlength)]
    exact .nil

theorem same_extend {run₁ run₂ : List Member} (h : List.Forall₂ (Member.Same body) run₁ run₂)
    (e : Bool) {c₁ c₂ : Conditional} {m₁ m₂ : Member} (hm₁ : Member.of? c₁ = some m₁)
    (hm₂ : Member.of? c₂ = some m₂) (hm : m₁.Same body m₂) :
    List.Forall₂ (Member.Same body) (extend run₁ e c₁) (extend run₂ e c₂) := by
  unfold extend
  split
  · exact h
  · rw [hm₁, hm₂]
    exact List.rel_append h (.cons hm .nil)

/-- In the body `after`, the statements `l` of `body` have become `l'`, with no branch left out in
them or in their ladders. -/
structure Completes (body after : Body) (l l' : List Statement) : Prop where
  filled : List.Forall₂ (Statement.Filled fun x => body.size ≤ x ∧ x < after.size) l l'
  complete : ∀ d, Statement.conditional d ∈ l' → d.thenBranch ≠ none
  ladders : ∀ c next b, Statement.conditional c ∈ l → c.elseBranch = some next →
    body.block next = .ok b → b.singleConditional?.isSome → after.Normal next

theorem Completes.tail {after : Body} {t t' : Statement} {l l' : List Statement}
    (h : Completes body after (t :: l) (t' :: l')) : Completes body after l l' where
  filled := (List.forall₂_cons.1 h.filled).2
  complete d hd := h.complete d (List.mem_cons_of_mem t' hd)
  ladders c next b hc := h.ladders c next b (List.mem_cons_of_mem t hc)

/-- Only a conditional can have changed. -/
theorem Completes.head {after : Body} {t t' : Statement} {l l' : List Statement}
    (h : Completes body after (t :: l) (t' :: l')) (ht : t.conditional? = none) : t' = t := by
  cases (List.forall₂_cons.1 h.filled).1 with
  | same => rfl
  | branch => cases ht

/-- Where the branches were filled in in two ways, the rest of a block gives the same chains, whatever
run of members is open there. -/
def GivesSame (s : Scanner) (body after₁ after₂ : Body) (home : BlockId)
    (l₁ l₂ : List Statement) : Prop :=
  ∀ ⦃run₁ run₂ : List Member⦄ ⦃chains₁ chains₂ : List Chain⦄,
    List.Forall₂ (Member.Same body) run₁ run₂ → s.Yields after₁ home run₁ l₁ chains₁ →
      s.Yields after₂ home run₂ l₂ chains₂ → List.Forall₂ (Chain.Same body) chains₁ chains₂

/-- A comment goes unseen, and any other statement that is no conditional closes the run. -/
theorem GivesSame.plain {t : Statement} {l₁ l₂ : List Statement} (hcond : t.conditional? = none)
    (h : GivesSame s body after₁ after₂ home l₁ l₂) :
    GivesSame s body after₁ after₂ home (t :: l₁) (t :: l₂) := by
  intro run₁ run₂ chains₁ chains₂ hrun hy₁ hy₂
  cases hy₁ with
  | comment hy₁ =>
    cases hy₂ with
    | comment hy₂ => exact h hrun hy₁ hy₂
    | other hcomment => cases hcomment
  | other hcomment _ hy₁ =>
    cases hy₂ with
    | other _ _ hy₂ => exact List.rel_append (same_close s home hrun) (h .nil hy₁ hy₂)
    | comment => cases hcomment
    | barrier | single | ladder => cases hcond
  | barrier | single | ladder => cases hcond

/-- A conditional closes the run, or goes on with it, in both ways. -/
theorem GivesSame.conditional (tree : body.TreeShaped) (h₁ : body.Filled after₁)
    (h₂ : body.Filled after₂) {c d₁ d₂ : Conditional} {l l₁ l₂ : List Statement}
    (hc : body.HoldsConditional c)
    (hc₁ : Completes body after₁ (.conditional c :: l) (.conditional d₁ :: l₁))
    (hc₂ : Completes body after₂ (.conditional c :: l) (.conditional d₂ :: l₂))
    (h : GivesSame s body after₁ after₂ home l₁ l₂) :
    GivesSame s body after₁ after₂ home (.conditional d₁ :: l₁) (.conditional d₂ :: l₂) := by
  intro run₁ run₂ chains₁ chains₂ hrun hy₁ hy₂
  obtain ⟨ht₁, -⟩ := List.forall₂_cons.1 hc₁.filled
  obtain ⟨ht₂, -⟩ := List.forall₂_cons.1 hc₂.filled
  obtain ⟨d₁', hd₁, he₁⟩ := ht₁.conditional_left
  cases hd₁
  obtain ⟨d₂', hd₂, he₂⟩ := ht₂.conditional_left
  cases hd₂
  obtain ⟨m₁, hm₁, hfrom₁⟩ := ht₁.exists_member (fun _ hx => hx.1)
    (hc₁.complete d₁ List.mem_cons_self)
  obtain ⟨m₂, hm₂, hfrom₂⟩ := ht₂.exists_member (fun _ hx => hx.1)
    (hc₂.complete d₂ List.mem_cons_self)
  have hm : m₁.Same body m₂ := ⟨c, hc, hfrom₁, hfrom₂⟩
  have hexits {e₁ e₂} (hx₁ : exits after₁ d₁ = .ok e₁) (hx₂ : exits after₂ d₂ = .ok e₂) :
      e₁ = e₂ := by
    have hx₁' := exits_of_filled tree h₁ hc ht₁ hx₁
    rw [exits_of_filled tree h₂ hc ht₂ hx₂, Except.ok.injEq] at hx₁'
    exact hx₁'.symm
  cases hy₁ with
  | other _ hn => cases hn
  | barrier hx₁ hp hy₁ =>
    cases hy₂ with
    | other _ hn => cases hn
    | barrier _ _ hy₂ => exact List.rel_append (same_close s home hrun) (h .nil hy₁ hy₂)
    | single hx₂ hp₂ => exact absurd hp (hp₂ (hexits hx₁ hx₂).symm)
    | ladder hx₂ hp₂ => exact absurd hp (hp₂ (hexits hx₁ hx₂).symm)
  | single hx₁ hp₁ hnone hy₁ =>
    cases hy₂ with
    | other _ hn => cases hn
    | barrier hx₂ hp => exact absurd hp (hp₁ (hexits hx₁ hx₂))
    | single hx₂ _ _ hy₂ =>
      obtain rfl := hexits hx₁ hx₂
      exact h (same_extend hrun _ hm₁ hm₂ hm) hy₁ hy₂
    | ladder _ _ hsome => rw [he₁, ← he₂, hsome] at hnone; cases hnone
  | @ladder _ _ _ alternative _ _ _ hx₁ hp₁ hsome₁ hresume₁ hy₁ =>
    cases hy₂ with
    | other _ hn => cases hn
    | barrier hx₂ hp => exact absurd hp (hp₁ (hexits hx₁ hx₂))
    | single _ _ hnone => rw [he₂, ← he₁, hsome₁] at hnone; cases hnone
    | ladder hx₂ _ hsome₂ hresume₂ hy₂ =>
      obtain rfl := hexits hx₁ hx₂
      rw [he₁] at hsome₁
      rw [he₂, hsome₁, Option.some.injEq] at hsome₂
      subst hsome₂
      have hnext := same_of_resume tree h₁ h₂ hc hsome₁
        (fun b => hc₁.ladders c _ b List.mem_cons_self hsome₁)
        (fun b => hc₂.ladders c _ b List.mem_cons_self hsome₁) hresume₁ hresume₂
      exact List.rel_append (same_close s home (same_extend hrun _ hm₁ hm₂ hm)) (h hnext hy₁ hy₂)

/-- Where the branches were filled in in two ways, a list of statements gives the same chains. -/
theorem same_of_yields (tree : body.TreeShaped) (h₁ : body.Filled after₁)
    (h₂ : body.Filled after₂) {l l₁ l₂ : List Statement}
    (hl : ∀ c, Statement.conditional c ∈ l → body.HoldsConditional c)
    (hc₁ : Completes body after₁ l l₁) (hc₂ : Completes body after₂ l l₂) :
    GivesSame s body after₁ after₂ home l₁ l₂ := by
  induction l generalizing l₁ l₂ with
  | nil =>
    obtain rfl := List.forall₂_nil_left_iff.1 hc₁.filled
    obtain rfl := List.forall₂_nil_left_iff.1 hc₂.filled
    intro run₁ run₂ chains₁ chains₂ hrun hy₁ hy₂
    cases hy₁
    cases hy₂
    exact same_close s home hrun
  | cons t l ih =>
    obtain ⟨t₁, l₁, ht₁, -, rfl⟩ := List.forall₂_cons_left_iff.1 hc₁.filled
    obtain ⟨t₂, l₂, ht₂, -, rfl⟩ := List.forall₂_cons_left_iff.1 hc₂.filled
    have hrest : GivesSame s body after₁ after₂ home l₁ l₂ :=
      ih (fun c hc => hl c (List.mem_cons_of_mem t hc)) hc₁.tail hc₂.tail
    cases hcond : t.conditional? with
    | none =>
      obtain rfl := hc₁.head hcond
      obtain rfl := hc₂.head hcond
      exact .plain hcond hrest
    | some c =>
      rw [Statement.conditional?_eq_some] at hcond
      subst hcond
      obtain ⟨d₁, rfl, -⟩ := ht₁.conditional_left
      obtain ⟨d₂, rfl, -⟩ := ht₂.conditional_left
      exact .conditional tree h₁ h₂ (hl c List.mem_cons_self) hc₁ hc₂ hrest

/-! ### A block -/

/-- The chains of the block `id` in the body that a scan of it left, after any other scans. -/
def FoundIn (s : Scanner) (body : Body) (id : BlockId) (chains : List Chain) : Prop :=
  ∃ now, body.Filled now ∧ now.Normal id ∧ s.Finds now id chains

theorem completes {after : Body} (tree : body.TreeShaped) (h : body.Filled after)
    (hn : after.Normal id) {b b' : Block} (hb : body.block id = .ok b)
    (hb' : after.block id = .ok b') : Completes body after b.statements b'.statements := by
  obtain ⟨b'', hb'', hf⟩ := h.old hb
  obtain rfl := Body.block_unique hb'' hb'
  refine ⟨hf.1, fun d hd hnone => ?_, fun c next b₁ hc he hb₁ hsome r hr => ?_⟩
  · exact (hn id .refl).not_lacksBranch hb' ⟨d, hd, hnone⟩
  · obtain ⟨d, hd⟩ := Option.isSome_iff_exists.1 hsome
    have hrung : body.IsRung id next := ⟨b, c, b₁, d, hb, hc, he, hb₁, hd⟩
    rw [← h.isRung_eq tree] at hrung
    exact hn r (.head hrung hr)

/-- A block has one list of chains. -/
theorem same_of_foundIn (tree : body.TreeShaped) {b : Block} (hb : body.block id = .ok b)
    {chains₁ chains₂ : List Chain} (h₁ : s.FoundIn body id chains₁)
    (h₂ : s.FoundIn body id chains₂) : List.Forall₂ (Chain.Same body) chains₁ chains₂ := by
  obtain ⟨after₁, hf₁, hn₁, b₁, hb₁, hy₁⟩ := h₁
  obtain ⟨after₂, hf₂, hn₂, b₂, hb₂, hy₂⟩ := h₂
  exact same_of_yields tree hf₁ hf₂ (fun c hc => ⟨id, b, hb, hc⟩) (completes tree hf₁ hn₁ hb hb₁)
    (completes tree hf₂ hn₂ hb hb₂) .nil hy₁ hy₂

/-! ### Many scans -/

/-- The blocks scanned one after the other, each in the body that the scan before it left. -/
def scanEach (s : Scanner) (body : Body) :
    List BlockId → Except Body.Fault (Body × List (List Chain))
  | [] => .ok (body, [])
  | id :: rest => do
    let (body, chains) ← s.scan body id
    let (body, lists) ← s.scanEach body rest
    return (body, chains :: lists)

/-- A scan fills in the branches of its block and of the ladders below it, and of no others. -/
theorem exists_filledAt_scan (s : Scanner) (tree : body.TreeShaped) {n : ℕ} (hn : body.Nests n id)
    (hle : n ≤ body.maxDepth) : ∃ after chains, s.scan body id = .ok (after, chains) ∧
      body.FilledAt (Relation.ReflTransGen body.IsRung id) after ∧ after.Normal id ∧
      s.Finds after id chains := by
  obtain ⟨after, chains, hscan, -, -, hnormal, hfinds⟩ := exists_scan (s := s) tree hn hle
  obtain ⟨after', hafter', hf⟩ := Body.exists_filledAt_normalize tree hn hle
  have hsame : after' = after := by
    rw [scan, hafter', ok_bind] at hscan
    obtain ⟨b, -, hscan⟩ := bind_eq_ok.1 hscan
    obtain ⟨chains', -, hscan⟩ := bind_eq_ok.1 hscan
    cases hscan
    rfl
  exact ⟨after, chains, hscan, hsame ▸ hf, hnormal, hfinds⟩

/-- The blocks whose branches a run of scans fills in: those that are scanned, and their ladders. -/
def Covers (body : Body) (ids : List BlockId) (x : BlockId) : Prop :=
  ∃ id ∈ ids, Relation.ReflTransGen body.IsRung id x

/-- A run of scans succeeds, each of them finds the chains of its block, and which branches are
filled in does not depend on the order. -/
theorem exists_scanEach (s : Scanner) (tree : body.TreeShaped) {now : Body} {P : BlockId → Prop}
    (h : body.FilledAt P now) {ids : List BlockId}
    (hids : ∀ id ∈ ids, body.Reaches Body.root id) :
    ∃ after lists, s.scanEach now ids = .ok (after, lists) ∧
      body.FilledAt (fun x => P x ∨ Covers body ids x) after ∧
      List.Forall₂ (s.FoundIn body) ids lists := by
  induction ids generalizing now P with
  | nil => exact ⟨now, [], rfl, h.congr (by simp [Covers]), .nil⟩
  | cons id ids ih =>
    have hnests : body.Nests body.maxDepth id :=
      tree.nests_root.of_reaches (hids id List.mem_cons_self)
    obtain ⟨next, chains, hscan, hf, hnormal, hfinds⟩ := exists_filledAt_scan s
      (h.treeShaped tree) (h.nests hnests) (Nat.succ_le_succ h.size_le)
    rw [h.isRung_eq tree] at hf
    have hnext := h.trans hf
    obtain ⟨after, lists, hrest, hfa, hlists⟩ :=
      ih hnext fun x hx => hids x (List.mem_cons_of_mem id hx)
    refine ⟨after, chains :: lists, ?_, hfa.congr fun x => ?_, .cons ⟨next, ?_, hnormal, hfinds⟩
      hlists⟩
    · rw [scanEach, hscan, ok_bind]
      dsimp only
      rw [hrest]
      rfl
    · simp only [Covers, List.mem_cons, or_and_right, exists_or, exists_eq_left, or_assoc]
    · exact hnext.toFilled

/-- **Scanning order does not matter.** Two runs of scans over a tree-shaped body both come to an
end. Whenever a block is scanned, in either run, its chains are those that its scan finds in the
first body, up to the numbers of new branches. When the two runs scan the same blocks, the bodies
that they leave differ in the numbers of new blocks only. -/
theorem scan_order_irrelevant (s : Scanner) (body : Body) (tree : body.TreeShaped)
    (ids ids' : List BlockId) (h : ∀ id ∈ ids ++ ids', body.Reaches Body.root id) :
    ∃ after lists after' lists',
      s.scanEach body ids = .ok (after, lists) ∧ s.scanEach body ids' = .ok (after', lists') ∧
      lists.length = ids.length ∧ lists'.length = ids'.length ∧
      (∀ id chains, (id, chains) ∈ ids.zip lists ++ ids'.zip lists' →
        (∃ first own, s.scan body id = .ok (first, own) ∧
          List.Forall₂ (Chain.Same body) own chains) ∧
        ∀ chains', (id, chains') ∈ ids.zip lists ++ ids'.zip lists' →
          List.Forall₂ (Chain.Same body) chains chains') ∧
      ((∀ id, id ∈ ids ↔ id ∈ ids') → ∃ π : Equiv.Perm BlockId,
        (∀ id < body.size, π id = id) ∧ after.RenamedBy π after' ∧
        ∀ id b, body.size ≤ id → after.block id = .ok b → b = Block.synthetic) := by
  obtain ⟨after, lists, hscans, hf, hlists⟩ := exists_scanEach s tree (.refl body)
    fun id hid => h id (List.mem_append_left ids' hid)
  obtain ⟨after', lists', hscans', hf', hlists'⟩ := exists_scanEach s tree (.refl body)
    fun id hid => h id (List.mem_append_right ids hid)
  have hfound : ∀ id chains, (id, chains) ∈ ids.zip lists ++ ids'.zip lists' →
      body.Reaches Body.root id ∧ s.FoundIn body id chains := by
    intro id chains hmem
    rcases List.mem_append.1 hmem with hmem | hmem
    · exact ⟨h id (List.mem_append_left _ (List.of_mem_zip hmem).1),
        (List.forall₂_iff_zip.1 hlists).2 hmem⟩
    · exact ⟨h id (List.mem_append_right _ (List.of_mem_zip hmem).1),
        (List.forall₂_iff_zip.1 hlists').2 hmem⟩
  refine ⟨after, lists, after', lists', hscans, hscans', hlists.length_eq.symm,
    hlists'.length_eq.symm, fun id chains hmem => ?_, fun hsame => ?_⟩
  · obtain ⟨hreach, hchains⟩ := hfound id chains hmem
    have hnests := tree.nests_root.of_reaches hreach
    obtain ⟨b, hb⟩ := hnests.exists_block
    obtain ⟨first, own, hscan, hfirst, hnormal, hfinds⟩ :=
      exists_filledAt_scan s tree hnests (Nat.le_refl _)
    refine ⟨⟨first, own, hscan, ?_⟩, fun chains' hmem' => ?_⟩
    · exact same_of_foundIn tree hb ⟨first, hfirst.toFilled, hnormal, hfinds⟩ hchains
    · exact same_of_foundIn tree hb hchains (hfound id chains' hmem').2
  · have hcovers : ∀ x, (False ∨ Covers body ids' x) ↔ (False ∨ Covers body ids x) := by
      intro x
      simp only [Covers, hsame]
    obtain ⟨π, hfix, hrenamed⟩ := hf.exists_renaming tree (hf'.congr hcovers)
    exact ⟨π, hfix, hrenamed, fun id b hle hb => hf.new hle hb⟩

/-! ### Two orders -/

/-- The body of the ladder with its last rung scanned first. -/
def turnedBody : Body := ⟨#[
  ⟨[.conditional ⟨3, .source "a", some 4, some 1, .zero⟩,
    .conditional ⟨5, .source "c", some 2, none, .zero⟩], .zero, true, false, false⟩,
  .unbraced (.conditional ⟨4, .source "b", some 3, none, .zero⟩) .zero false,
  ⟨[.other ⟨"x();", .zero, .zero⟩], .zero, true, false, false⟩, .synthetic, .synthetic]⟩

theorem scanEach_ladder :
    standard.scanEach Method.ladder.body [0, 1] =
      .ok (Method.ladderBody, [[Method.ladderChain], []]) ∧
    standard.scanEach Method.ladder.body [1, 0, 1] =
      .ok (turnedBody, [[], [⟨Body.root, [⟨4, 3⟩, ⟨5, 2⟩], by decide⟩], []]) := by
  decide +kernel

theorem reaches_ladder : ∀ id ∈ [0, 1] ++ [1, 0, 1], Method.ladder.body.Reaches Body.root id := by
  have hchild : Method.ladder.body.Reaches Body.root 1 := .child .self ⟨_, rfl, by decide⟩
  intro id hid
  simp only [List.cons_append, List.nil_append, List.mem_cons, List.not_mem_nil, or_false] at hid
  rcases hid with rfl | rfl | rfl | rfl | rfl
  · exact .self
  · exact hchild
  · exact hchild
  · exact .self
  · exact hchild

/-- The small ladder scanned from its first rung and from its last: one chain, and two bodies that
differ in the numbers of the two new blocks. -/
theorem scan_order_irrelevant_ladder : Method.ladder.body.TreeShaped ∧
    (∀ id ∈ [0, 1] ++ [1, 0, 1], Method.ladder.body.Reaches Body.root id) ∧
    List.Forall₂ (Chain.Same Method.ladder.body) [Method.ladderChain]
      [⟨Body.root, [⟨4, 3⟩, ⟨5, 2⟩], by decide⟩] ∧
    ∃ π : Equiv.Perm BlockId, (∀ id < 3, π id = id) ∧
      Method.ladderBody.RenamedBy π turnedBody := by
  obtain ⟨after, lists, after', lists', hscans, hscans', -, -, hchains, hrenamed⟩ :=
    scan_order_irrelevant standard Method.ladder.body Method.treeShaped_ladder [0, 1] [1, 0, 1]
      reaches_ladder
  rw [scanEach_ladder.1, Except.ok.injEq, Prod.mk.injEq] at hscans
  rw [scanEach_ladder.2, Except.ok.injEq, Prod.mk.injEq] at hscans'
  obtain ⟨rfl, rfl⟩ := hscans
  obtain ⟨rfl, rfl⟩ := hscans'
  obtain ⟨π, hfix, hsame, -⟩ := hrenamed (by simp [or_comm])
  exact ⟨Method.treeShaped_ladder, reaches_ladder,
    (hchains 0 [Method.ladderChain] (by simp)).2 _ (by simp), π, hfix, hsame⟩

end Scanner

end BranchExclusion
