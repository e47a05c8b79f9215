import BranchExclusion.Proofs.Chain.Members

/-!
# Runs of conditionals

What a scan of a block finds, told without the scan.

* `Body.leaves`, `Scanner.decisive`: the conditionals that directly leave the block, and the
  statements that decide about its chains;
* `Body.Run`, `Body.MaximalRun`: an interval of these statements that makes up a run, and one that
  cannot be extended;
* `Scanner.RunMembers`: the members of a run, with the last rung of the ladder directly before it;
* `Scanner.Open`, `Scanner.AllRuns`: the run that is open at a place, and the chains of all runs from
  a place on;
* `Scanner.scan_finds_maximal_runs`: the chains of a block are its maximal runs.
-/

namespace BranchExclusion

/-- The alternative of the statement, if it is a conditional that has one. -/
def Statement.alternative? (t : Statement) : Option BlockId :=
  t.conditional?.bind Conditional.elseBranch

/-- The member that the statement makes, if it is a conditional with a true branch. -/
def Statement.member? (t : Statement) : Option Member := t.conditional?.bind Member.of?

namespace Body

/-- The true branch of the conditional has an exit among its own statements. -/
def leaves (body : Body) (c : Conditional) : Bool :=
  match c.thenBranch with
  | none => false
  | some t => (body.block t).toOption.any Block.exitsDirectly

/-- The statement is a conditional whose true branch does not directly leave the block. -/
def joins (body : Body) (t : Statement) : Bool := t.conditional?.any fun c => !body.leaves c

/-- The statements of `l` from index `i` to index `j` are conditionals that do not leave the block,
and before the last of them none has an alternative. -/
structure Run (body : Body) (l : List Statement) (i j : ℕ) : Prop where
  ordered : i ≤ j
  joins : ∀ k, i ≤ k → k ≤ j → ∃ t, l[k]? = some t ∧ body.joins t = true
  single : ∀ k t, i ≤ k → k < j → l[k]? = some t → t.alternative? = none

/-- A run that can be extended on neither side. -/
structure MaximalRun (body : Body) (l : List Statement) (i j : ℕ) : Prop
    extends body.Run l i j where
  left : ∀ k t, k + 1 = i → l[k]? = some t → ¬ (body.joins t = true ∧ t.alternative? = none)
  right : (∃ t, l[j]? = some t ∧ t.alternative? ≠ none) ∨
    ∀ t, l[j + 1]? = some t → body.joins t = false

variable {body : Body} {l : List Statement} {c : Conditional}

theorem leaves_of_exits {e : Bool} (h : Scanner.exits body c = .ok e) : body.leaves c = e := by
  unfold Scanner.exits at h
  unfold leaves
  cases ht : c.thenBranch with
  | none =>
    rw [ht] at h
    cases h
    rfl
  | some t =>
    rw [ht] at h
    obtain ⟨b, hb, he⟩ := bind_eq_ok.1 h
    cases he
    dsimp only
    rw [hb]
    rfl

theorem joins_conditional (body : Body) (c : Conditional) :
    body.joins (.conditional c) = !body.leaves c := rfl

theorem joins_of_conditional?_eq_none {t : Statement} (h : t.conditional? = none) :
    body.joins t = false := by
  rw [joins, h]
  rfl

/-- Conditionals from `start` on and before `stop`, of which only the last may have an alternative,
and which no conditional can join on the left or, if there are any, on the right. -/
structure Stretch (body : Body) (l : List Statement) (start stop : ℕ) : Prop where
  joins : ∀ k, start ≤ k → k < stop → ∃ t, l[k]? = some t ∧ body.joins t = true
  single : ∀ k t, start ≤ k → k + 1 < stop → l[k]? = some t → t.alternative? = none
  left : ∀ k t, k + 1 = start → l[k]? = some t → ¬ (body.joins t = true ∧ t.alternative? = none)
  right : (∃ k t, start ≤ k ∧ k + 1 = stop ∧ l[k]? = some t ∧ t.alternative? ≠ none) ∨
    ∀ t, l[stop]? = some t → body.joins t = false

namespace Stretch

variable {start stop i j : ℕ}

theorem maximalRun (h : body.Stretch l start stop) (hlt : start < stop) (hj : j + 1 = stop) :
    body.MaximalRun l start j where
  ordered := by omega
  joins k hk hkj := h.joins k hk (by omega)
  single k t hk hkj := h.single k t hk (by omega)
  left := h.left
  right := by
    rcases h.right with ⟨k, t, -, hk, ht, ha⟩ | hnext
    · obtain rfl : k = j := by omega
      exact .inl ⟨t, ht, ha⟩
    · exact .inr (hj ▸ hnext)

/-- A maximal run that starts within a stretch is the whole stretch. -/
theorem eq_of_maximalRun (h : body.Stretch l start stop) (hr : body.MaximalRun l i j)
    (hi : start ≤ i) (hlt : i < stop) : i = start ∧ j + 1 = stop := by
  have hstart : i = start := by
    by_contra hne
    -- the conditional before could be taken in
    obtain ⟨k, rfl⟩ : ∃ k, i = k + 1 := ⟨i - 1, by omega⟩
    obtain ⟨t, ht, hjoins⟩ := h.joins k (by omega) (by omega)
    exact hr.left k t rfl ht ⟨hjoins, h.single k t (by omega) hlt ht⟩
  subst hstart
  refine ⟨rfl, ?_⟩
  have hordered := hr.ordered
  rcases Nat.lt_trichotomy (j + 1) stop with hj | hj | hj
  · obtain ⟨t, ht, hjoins⟩ := h.joins (j + 1) (by omega) hj
    rcases hr.right with ⟨u, hu, ha⟩ | hnext
    · exact absurd (h.single j u hordered hj hu) ha
    · rw [hnext t ht] at hjoins
      cases hjoins
  · exact hj
  · rcases h.right with ⟨k, t, hk, hstop, ht, ha⟩ | hnext
    · exact absurd (hr.single k t hk (by omega) ht) ha
    · obtain ⟨t, ht, hjoins⟩ := hr.joins stop (by omega) (by omega)
      rw [hnext t ht] at hjoins
      cases hjoins

end Stretch

/-! ### The end of a ladder -/

theorem eq_some_of_ladder {n : ℕ} {id : BlockId} {rung : Conditional} {x : Option Conditional}
    (h : body.Ladder id rung) (hx : body.ladderEndWithin n id = .ok x) : x = some rung := by
  induction h generalizing n with
  | last hb hc he =>
    cases n with
    | zero => cases hx
    | succ n =>
      rw [ladderEndWithin, hb, ok_bind, hc] at hx
      dsimp only at hx
      rw [he] at hx
      cases hx
      rfl
  | step hb hc he _ ih =>
    cases n with
    | zero => cases hx
    | succ n =>
      rw [ladderEndWithin, hb, ok_bind, hc] at hx
      dsimp only at hx
      rw [he] at hx
      exact ih hx

end Body

namespace Scanner

variable {s : Scanner} {body : Body} {home id : BlockId} {l : List Statement}

/-- The scan goes on as if the statement were not there: a comment or, under the transparent policy,
a conditional that leaves the block and has no alternative. -/
def passesOver (s : Scanner) (body : Body) (t : Statement) : Bool :=
  t.isComment ||
    (s.policy == .transparent && t.conditional?.any body.leaves && t.alternative?.isNone)

/-- The statements that decide about the chains of their block. -/
def decisive (s : Scanner) (body : Body) (l : List Statement) : List Statement :=
  l.filter fun t => !s.passesOver body t

/-- The statement hands `m` over to the run behind it: it is a conditional with a ladder whose last
rung makes this member. Under the barrier policy a conditional that leaves the block does not. -/
def HandsOver (s : Scanner) (body : Body) (t : Statement) (m : Member) : Prop :=
  ∃ c alternative rung, t = .conditional c ∧ c.elseBranch = some alternative ∧
    (s.policy = .barrier → body.leaves c = false) ∧ body.Ladder alternative rung ∧
      Member.of? rung = some m

/-- The members of the statements of `l` from index `start` on and before index `stop`. A member that
the statement directly before hands over comes first. -/
def RunMembers (s : Scanner) (body : Body) (l : List Statement) (start stop : ℕ)
    (members : List Member) : Prop :=
  ∃ (lead : Option Member) (own : List Member), members = lead.toList ++ own ∧
    (∀ m, lead = some m ↔ ∃ k t, k + 1 = start ∧ l[k]? = some t ∧ s.HandsOver body t m) ∧
    ((l.take stop).drop start).map Statement.member? = own.map some

namespace RunMembers

variable {start stop : ℕ} {members members' : List Member}

/-- A run has one list of members. -/
theorem unique (h : s.RunMembers body l start stop members)
    (h' : s.RunMembers body l start stop members') : members = members' := by
  obtain ⟨lead, own, rfl, hlead, hown⟩ := h
  obtain ⟨lead', own', rfl, hlead', hown'⟩ := h'
  have hl : lead = lead' := Option.ext fun m => (hlead m).trans (hlead' m).symm
  have ho : own.map some = own'.map some := hown.symm.trans hown'
  rw [hl, List.map_inj_right (fun _ _ => Option.some.inj) |>.1 ho]

theorem length_le (h : s.RunMembers body l start stop members) :
    members.length ≤ 1 + (stop - start) := by
  obtain ⟨lead, own, rfl, -, hown⟩ := h
  have hlead : lead.toList.length ≤ 1 := by cases lead <;> simp
  have hlen := congrArg List.length hown
  simp only [List.length_map, List.length_drop, List.length_take] at hlen
  rw [List.length_append]
  omega

theorem snoc (h : s.RunMembers body l start stop members) (hle : start ≤ stop) {t : Statement}
    {m : Member} (ht : l[stop]? = some t) (hm : t.member? = some m) :
    s.RunMembers body l start (stop + 1) (members ++ [m]) := by
  obtain ⟨lead, own, rfl, hlead, hown⟩ := h
  obtain ⟨hlt, -⟩ := List.getElem?_eq_some_iff.1 ht
  refine ⟨lead, own ++ [m], by rw [List.append_assoc], hlead, ?_⟩
  rw [List.take_add_one, ht, List.drop_append_of_le_length (by simp; omega), List.map_append, hown]
  simp [hm]

/-- Nothing but what the statement before hands over. -/
theorem of_lead {lead : Option Member}
    (h : ∀ m, lead = some m ↔ ∃ k t, k + 1 = start ∧ l[k]? = some t ∧ s.HandsOver body t m) :
    s.RunMembers body l start start lead.toList :=
  ⟨lead, [], by simp, h, by simp⟩

end RunMembers

/-! ### The chains from a place on -/

/-- `chains` are made by the maximal runs of `l` that start at index `start` or behind it and are
long enough, in this order. -/
def AllRuns (s : Scanner) (body : Body) (home : BlockId) (l : List Statement) (start : ℕ)
    (chains : List Chain) : Prop :=
  ∃ spans : List (ℕ × ℕ), spans.Pairwise (fun x y => x.2 < y.1) ∧
    (∀ i j, (i, j) ∈ spans ↔ start ≤ i ∧ body.MaximalRun l i j ∧
      ∃ members, s.RunMembers body l i (j + 1) members ∧ s.minLength ≤ members.length) ∧
    List.Forall₂ (fun x c => c.home = home ∧ s.RunMembers body l x.1 (x.2 + 1) c.members)
      spans chains

namespace AllRuns

variable {start stop next : ℕ} {run : List Member} {chains : List Chain}

theorem of_length_le (h : l.length ≤ start) : s.AllRuns body home l start [] := by
  refine ⟨[], .nil, fun i j => ⟨fun hmem => absurd hmem List.not_mem_nil, ?_⟩, .nil⟩
  rintro ⟨hi, hr, -⟩
  obtain ⟨t, ht, -⟩ := hr.joins i (Nat.le_refl _) hr.ordered
  have := (List.getElem?_eq_some_iff.1 ht).1
  omega

/-- The run of a stretch is closed, and the other runs start at `next` or behind it. -/
theorem close (h : s.AllRuns body home l next chains) (hs : body.Stretch l start stop)
    (hrun : s.RunMembers body l start stop run) (hstart : start ≤ stop) (hnext : stop ≤ next)
    (hskip : ∀ i j, stop ≤ i → i < next → ¬ body.MaximalRun l i j) :
    s.AllRuns body home l start (s.close home run ++ chains) := by
  obtain ⟨spans, hpair, hmem, hchains⟩ := h
  have hlength := hrun.length_le
  have htwo := s.two_le
  unfold Scanner.close
  split
  · next hlong =>
    obtain ⟨last, rfl⟩ : ∃ last, stop = last + 1 := ⟨stop - 1, by omega⟩
    refine ⟨(start, last) :: spans, List.pairwise_cons.2 ⟨?_, hpair⟩, fun i j => ?_,
      .cons ⟨rfl, hrun⟩ hchains⟩
    · rintro ⟨i, j⟩ hij
      exact Nat.lt_of_lt_of_le hnext ((hmem i j).1 hij).1
    · rw [List.mem_cons, hmem, Prod.mk.injEq]
      constructor
      · rintro (⟨rfl, rfl⟩ | ⟨hi, hr⟩)
        · exact ⟨Nat.le_refl _, hs.maximalRun (by omega) rfl, run, hrun, hlong⟩
        · exact ⟨by omega, hr⟩
      · rintro ⟨hi, hr, hm⟩
        by_cases hlt : i < last + 1
        · obtain ⟨rfl, hj⟩ := hs.eq_of_maximalRun hr hi hlt
          exact .inl ⟨rfl, by omega⟩
        · refine .inr ⟨Nat.not_lt.1 fun hn => ?_, hr, hm⟩
          exact hskip i j (Nat.not_lt.1 hlt) hn hr
  · next hshort =>
    refine ⟨spans, hpair, fun i j => ?_, hchains⟩
    rw [hmem]
    constructor
    · rintro ⟨hi, hr⟩
      exact ⟨by omega, hr⟩
    · rintro ⟨hi, hr, members, hm, hlong⟩
      by_cases hlt : i < stop
      · obtain ⟨rfl, rfl⟩ := hs.eq_of_maximalRun hr hi hlt
        rw [hm.unique hrun] at hlong
        exact absurd hlong hshort
      · refine ⟨Nat.not_lt.1 fun hn => ?_, hr, members, hm, hlong⟩
        exact hskip i j (Nat.not_lt.1 hlt) hn hr

end AllRuns

/-! ### The open run -/

/-- At index `stop` the run that started at `start` is open and has the members `run`. -/
structure Open (s : Scanner) (body : Body) (l : List Statement) (start stop : ℕ)
    (run : List Member) : Prop where
  le : start ≤ stop
  before : ∀ k, start ≤ k → k < stop →
    ∃ t, l[k]? = some t ∧ body.joins t = true ∧ t.alternative? = none
  left : ∀ k t, k + 1 = start → l[k]? = some t → ¬ (body.joins t = true ∧ t.alternative? = none)
  members : s.RunMembers body l start stop run

namespace Open

variable {start stop : ℕ} {run : List Member} {t : Statement} {m : Member}

/-- The next statement is no conditional that could join. -/
theorem stretch (h : s.Open body l start stop run)
    (hnext : ∀ t, l[stop]? = some t → body.joins t = false) : body.Stretch l start stop where
  joins k hk hlt := by
    obtain ⟨t, ht, hj, -⟩ := h.before k hk hlt
    exact ⟨t, ht, hj⟩
  single k t hk hlt ht := by
    obtain ⟨u, hu, -, ha⟩ := h.before k hk (by omega)
    rw [ht, Option.some.injEq] at hu
    exact hu ▸ ha
  left := h.left
  right := .inr hnext

/-- The next statement joins, and its alternative ends the run. -/
theorem stretch_last (h : s.Open body l start stop run) (ht : l[stop]? = some t)
    (hj : body.joins t = true) (ha : t.alternative? ≠ none) :
    body.Stretch l start (stop + 1) where
  joins k hk hlt := by
    rcases Nat.lt_succ_iff_lt_or_eq.1 hlt with hlt | rfl
    · obtain ⟨t, ht, hj, -⟩ := h.before k hk hlt
      exact ⟨t, ht, hj⟩
    · exact ⟨t, ht, hj⟩
  single k u hk hlt hu := by
    obtain ⟨v, hv, -, hnone⟩ := h.before k hk (by omega)
    rw [hu, Option.some.injEq] at hv
    exact hv ▸ hnone
  left := h.left
  right := .inl ⟨stop, t, h.le, rfl, ht, ha⟩

theorem snoc (h : s.Open body l start stop run) (ht : l[stop]? = some t)
    (hj : body.joins t = true) (ha : t.alternative? = none) (hm : t.member? = some m) :
    s.Open body l start (stop + 1) (run ++ [m]) where
  le := Nat.le_succ_of_le h.le
  before k hk hlt := by
    rcases Nat.lt_succ_iff_lt_or_eq.1 hlt with hlt | rfl
    · exact h.before k hk hlt
    · exact ⟨t, ht, hj, ha⟩
  left := h.left
  members := h.members.snoc h.le ht hm

/-- Behind a statement that ends the run, one is open with what the statement hands over. -/
theorem behind {lead : Option Member} (ht : l[stop]? = some t)
    (hend : ¬ (body.joins t = true ∧ t.alternative? = none))
    (hlead : ∀ m, lead = some m ↔ s.HandsOver body t m) :
    s.Open body l (stop + 1) (stop + 1) lead.toList where
  le := Nat.le_refl _
  before k hk hlt := absurd hlt (Nat.not_lt.2 hk)
  left k u hk hu := by
    obtain rfl := Nat.succ.inj hk
    rw [ht, Option.some.injEq] at hu
    exact hu ▸ hend
  members := by
    refine .of_lead fun m => (hlead m).trans ⟨fun h => ⟨stop, t, rfl, ht, h⟩, ?_⟩
    rintro ⟨k, u, hk, hu, h⟩
    obtain rfl := Nat.succ.inj hk
    rw [ht, Option.some.injEq] at hu
    exact hu ▸ h

/-- Behind a statement that neither joins nor hands over anything an empty run is open. -/
theorem empty (ht : l[stop]? = some t) (hj : body.joins t = false)
    (hnothing : ∀ m, ¬ s.HandsOver body t m) : s.Open body l (stop + 1) (stop + 1) [] := by
  have hlead : ∀ m, none = some m ↔ s.HandsOver body t m := fun m => by simp [hnothing m]
  exact behind ht (by simp [hj]) hlead

end Open

theorem handsOver_conditional {c : Conditional} {alternative : BlockId} {next : List Member}
    (hp : s.policy = .barrier → body.leaves c = false) (he : c.elseBranch = some alternative)
    (hnext : resume body alternative = .ok next) :
    ∃ lead : Option Member, next = lead.toList ∧
      ∀ m, lead = some m ↔ s.HandsOver body (.conditional c) m := by
  obtain ⟨x, hx, hret⟩ := bind_eq_ok.1 hnext
  cases hret
  refine ⟨x.bind Member.of?, rfl, fun m => ⟨fun hm => ?_, ?_⟩⟩
  · obtain ⟨rung, rfl, hm⟩ := Option.bind_eq_some_iff.1 hm
    exact ⟨c, alternative, rung, rfl, he, hp, Body.ladder_of_ladderEndWithin hx, hm⟩
  · rintro ⟨d, alternative', rung, hd, he', -, hladder, hm⟩
    cases hd
    rw [he, Option.some.injEq] at he'
    subst he'
    rw [Body.eq_some_of_ladder hladder hx]
    exact hm

/-- A statement that is not passed over is the next one of `l`. -/
theorem getElem?_of_drop_eq_decisive {stop : ℕ} {t : Statement} {rest : List Statement}
    (h : l.drop stop = s.decisive body (t :: rest)) (hkept : s.passesOver body t = false) :
    l[stop]? = some t ∧ l.drop (stop + 1) = s.decisive body rest := by
  rw [decisive, List.filter_cons_of_pos (by simp [hkept])] at h
  have hget : (l.drop stop)[0]? = some t := by rw [h]; rfl
  have htail : (l.drop stop).tail = s.decisive body rest := by rw [h]; rfl
  rw [List.getElem?_drop] at hget
  rw [List.tail_drop] at htail
  exact ⟨hget, htail⟩

namespace Open

variable {start stop : ℕ} {run : List Member} {t : Statement} {m : Member} {chains : List Chain}

/-- A statement that does not join closes the run. -/
theorem close_before (h : s.Open body l start stop run) (ht : l[stop]? = some t)
    (hj : body.joins t = false) (hc : s.AllRuns body home l (stop + 1) chains) :
    s.AllRuns body home l start (s.close home run ++ chains) := by
  have hnext : ∀ u, l[stop]? = some u → body.joins u = false := by
    intro u hu
    rw [ht, Option.some.injEq] at hu
    exact hu ▸ hj
  refine hc.close (h.stretch hnext) h.members h.le (Nat.le_succ stop) fun i j hi hlt hr => ?_
  obtain rfl : i = stop := by omega
  obtain ⟨u, hu, hjoins⟩ := hr.joins i (Nat.le_refl _) hr.ordered
  rw [hnext u hu] at hjoins
  cases hjoins

/-- A conditional with an alternative closes the run as its last member. -/
theorem close_behind (h : s.Open body l start stop run) (ht : l[stop]? = some t)
    (hj : body.joins t = true) (ha : t.alternative? ≠ none) (hm : t.member? = some m)
    (hc : s.AllRuns body home l (stop + 1) chains) :
    s.AllRuns body home l start (s.close home (run ++ [m]) ++ chains) :=
  hc.close (h.stretch_last ht hj ha) (h.members.snoc h.le ht hm) (Nat.le_succ_of_le h.le)
    (Nat.le_refl _) fun _ _ hi hlt => absurd hi (Nat.not_le.2 hlt)

end Open

theorem exists_member {c : Conditional} (h : c.thenBranch ≠ none) :
    ∃ m, (Statement.conditional c).member? = some m ∧ (Member.of? c).toList = [m] := by
  obtain ⟨t, ht⟩ := Option.ne_none_iff_exists'.1 h
  exact ⟨⟨c.line, t⟩, by simp [Statement.member?, Statement.conditional?, Member.of?, ht],
    by simp [Member.of?, ht]⟩

/-- A scan that goes on from an open run gives the chains of the runs from there on. -/
theorem Yields.allRuns {run : List Member} {rest : List Statement} {chains : List Chain}
    (hy : s.Yields body home run rest chains) {start stop : ℕ}
    (hrest : l.drop stop = s.decisive body rest) (hopen : s.Open body l start stop run)
    (hcomplete : ∀ c, Statement.conditional c ∈ rest → c.thenBranch ≠ none) :
    s.AllRuns body home l start chains := by
  induction hy generalizing start stop with
  | @done run =>
    have hend : l.length ≤ stop := List.drop_eq_nil_iff.1 hrest
    have hs := hopen.stretch (by simp [List.getElem?_eq_none hend])
    have hclosed : s.AllRuns body home l start (s.close home run ++ []) :=
      (AllRuns.of_length_le hend).close hs hopen.members hopen.le (Nat.le_refl _)
        fun i j hi hlt => absurd hi (Nat.not_le.2 hlt)
    rwa [List.append_nil] at hclosed
  | comment _ ih =>
    exact ih hrest hopen fun c hc => hcomplete c (List.mem_cons_of_mem _ hc)
  | @barrier run c rest chains he hp _ ih =>
    have hleaves := Body.leaves_of_exits he
    have hjoins : body.joins (.conditional c) = false := by simp [Body.joins_conditional, hleaves]
    obtain ⟨ht, htail⟩ := getElem?_of_drop_eq_decisive hrest (by
      simp [passesOver, hp, Statement.isComment])
    have hnothing : ∀ m, ¬ s.HandsOver body (.conditional c) m := by
      rintro m ⟨d, x, rung, hd, -, hbarrier, -⟩
      cases hd
      rw [hbarrier hp] at hleaves
      cases hleaves
    exact hopen.close_before ht hjoins (ih htail (.empty ht hjoins hnothing)
      fun d hd => hcomplete d (List.mem_cons_of_mem _ hd))
  | @single run c rest chains e he hp hnone _ ih =>
    have hleaves := Body.leaves_of_exits he
    have hcomplete' := fun d hd => hcomplete d (List.mem_cons_of_mem _ hd)
    have halt : (Statement.conditional c).alternative? = none := hnone
    cases e with
    | true =>
      have hpolicy : s.policy = .transparent := by
        cases h : s.policy with
        | barrier => exact absurd h (hp rfl)
        | transparent => rfl
      have hpassed : s.passesOver body (.conditional c) = true := by
        simp [passesOver, hpolicy, Statement.conditional?, hleaves, halt]
      rw [decisive, List.filter_cons_of_neg (by simp [hpassed])] at hrest
      exact ih hrest hopen hcomplete'
    | false =>
      have hjoins : body.joins (.conditional c) = true := by simp [Body.joins_conditional, hleaves]
      obtain ⟨m, hm, hlist⟩ := exists_member (hcomplete c List.mem_cons_self)
      obtain ⟨ht, htail⟩ := getElem?_of_drop_eq_decisive hrest (by
        simp [passesOver, Statement.isComment, Statement.conditional?, hleaves])
      refine ih htail ?_ hcomplete'
      have hsnoc := hopen.snoc ht hjoins halt hm
      rwa [← hlist] at hsnoc
  | @ladder run next c alternative rest chains e he hp hsome hnext _ ih =>
    have hleaves := Body.leaves_of_exits he
    have hcomplete' := fun d hd => hcomplete d (List.mem_cons_of_mem _ hd)
    have halt : (Statement.conditional c).alternative? = some alternative := hsome
    have hbarrier : s.policy = .barrier → body.leaves c = false := by
      intro hpolicy
      rw [hleaves]
      exact Bool.eq_false_iff.2 fun h => hp h hpolicy
    obtain ⟨ht, htail⟩ := getElem?_of_drop_eq_decisive hrest (by
      simp [passesOver, Statement.isComment, halt])
    obtain ⟨lead, rfl, hlead⟩ := handsOver_conditional hbarrier hsome hnext
    have hafter := ih htail (.behind ht (by simp [halt]) hlead) hcomplete'
    cases e with
    | true =>
      exact hopen.close_before ht (by simp [Body.joins_conditional, hleaves]) hafter
    | false =>
      have hjoins : body.joins (.conditional c) = true := by simp [Body.joins_conditional, hleaves]
      obtain ⟨m, hm, hlist⟩ := exists_member (hcomplete c List.mem_cons_self)
      have hclosed := hopen.close_behind ht hjoins (by simp [halt]) hm hafter
      rwa [← hlist] at hclosed
  | @other run t rest chains hcomment hcond _ ih =>
    have hjoins : body.joins t = false := Body.joins_of_conditional?_eq_none hcond
    obtain ⟨ht, htail⟩ := getElem?_of_drop_eq_decisive hrest (by
      simp [passesOver, hcomment, hcond])
    have hnothing : ∀ m, ¬ s.HandsOver body t m := by
      rintro m ⟨d, x, rung, rfl, -⟩
      cases hcond
    exact hopen.close_before ht hjoins (ih htail (.empty ht hjoins hnothing)
      fun d hd => hcomplete d (List.mem_cons_of_mem _ hd))

/-- The chains of a normal block are those of its maximal runs. -/
theorem Finds.allRuns {chains : List Chain} (h : s.Finds body id chains) (hn : body.Normal id) :
    ∃ b, body.block id = .ok b ∧
      s.AllRuns body id (s.decisive body b.statements) 0 chains := by
  obtain ⟨b, hb, hy⟩ := h
  have hlacks := (hn id .refl).not_lacksBranch hb
  refine ⟨b, hb, hy.allRuns rfl ⟨Nat.le_refl _, ?_, ?_, ?_⟩ fun c hc hnone => hlacks ⟨c, hc, hnone⟩⟩
  · exact fun k _ hlt => absurd hlt (Nat.not_lt_zero k)
  · exact fun k _ hk => absurd hk (Nat.succ_ne_zero k)
  · -- nothing stands before the block that could hand a member over
    show s.RunMembers body _ 0 0 (Option.toList none)
    exact .of_lead fun m => by simp

/-- **A scan finds exactly the maximal runs.** In a tree-shaped body every block that the root leads
to can be scanned. Its chains are, in source order and without repetition, the maximal runs of its
statements that have enough members, where the conditionals have all their branches and comments and
the conditionals that the policy passes over are left out. -/
theorem scan_finds_maximal_runs (policy : ExitPolicy) (length : ℕ) (body : Body) (id : BlockId)
    (tree : body.TreeShaped) (h : body.Reaches Body.root id) :
    ∃ after b chains, body.normalize id = .ok after ∧ after.block id = .ok b ∧
      (new policy length).scan body id = .ok (after, chains) ∧
      ∃ spans : List (ℕ × ℕ), spans.Pairwise (fun x y => x.2 < y.1) ∧
        (∀ i j, (i, j) ∈ spans ↔
          after.MaximalRun ((new policy length).decisive after b.statements) i j ∧
          ∃ members, (new policy length).RunMembers after
            ((new policy length).decisive after b.statements) i (j + 1) members ∧
              max 2 length ≤ members.length) ∧
        List.Forall₂ (fun x c => c.home = id ∧ (new policy length).RunMembers after
          ((new policy length).decisive after b.statements) x.1 (x.2 + 1) c.members)
            spans chains := by
  have hnests := tree.nests_root.of_reaches h
  obtain ⟨after, chains, hscan, -, -, hnormal, hfinds⟩ :=
    exists_scan (s := new policy length) tree hnests (Nat.le_refl _)
  obtain ⟨b, hb, spans, hpair, hmem, hchains⟩ := hfinds.allRuns hnormal
  refine ⟨after, b, chains, (scan_eq_ok.1 hscan).1, hb, hscan, spans, hpair, fun i j => ?_, hchains⟩
  rw [hmem]
  exact and_iff_right (Nat.zero_le i)

/-! ### A conditional that returns, and a ladder -/

/-- Two conditionals with a comment and a conditional that returns between them. The second has an
`else if`, and one more conditional and a call follow. -/
def returningBetween : Body := ⟨#[
  ⟨[.conditional ⟨3, .source "a", some 1, none, .zero⟩, .comment "// next" .zero,
    .conditional ⟨7, .source "b", some 2, none, .zero⟩,
    .conditional ⟨10, .source "c", some 3, some 4, .zero⟩,
    .conditional ⟨15, .source "e", none, none, .zero⟩, .other ⟨"x();", .zero, .zero⟩],
    .zero, true, false, false⟩,
  .synthetic,
  ⟨[.exit .returns ⟨"return;", .zero, .zero⟩], .zero, true, false, false⟩,
  .synthetic,
  .unbraced (.conditional ⟨12, .source "d", some 5, none, .zero⟩) .zero false,
  .synthetic]⟩

theorem treeShaped_returningBetween : returningBetween.TreeShaped :=
  ⟨by decide, by decide, by decide, by decide⟩

theorem scan_returningBetween : ∃ after,
    (new .transparent 1).scan returningBetween Body.root = .ok (after,
      [⟨Body.root, [⟨3, 1⟩, ⟨10, 3⟩], by decide⟩, ⟨Body.root, [⟨12, 5⟩, ⟨15, 6⟩], by decide⟩]) :=
  ⟨_, by rfl⟩

/-- Under the transparent policy the conditional that returns is passed over, and the second run
starts with the last rung of the ladder. -/
theorem scan_finds_maximal_runs_returning : returningBetween.TreeShaped ∧
    returningBetween.Reaches Body.root Body.root ∧
    ∃ after b l, after.block Body.root = .ok b ∧ l = (new .transparent 1).decisive after b.statements ∧
      ∃ x y : ℕ × ℕ, x.2 < y.1 ∧ after.MaximalRun l x.1 x.2 ∧ after.MaximalRun l y.1 y.2 ∧
        (new .transparent 1).RunMembers after l x.1 (x.2 + 1) [⟨3, 1⟩, ⟨10, 3⟩] ∧
        (new .transparent 1).RunMembers after l y.1 (y.2 + 1) [⟨12, 5⟩, ⟨15, 6⟩] := by
  refine ⟨treeShaped_returningBetween, .self, ?_⟩
  obtain ⟨after, b, chains, -, hb, hscan, spans, hpair, hmem, hchains⟩ :=
    scan_finds_maximal_runs .transparent 1 returningBetween Body.root treeShaped_returningBetween
      .self
  obtain ⟨after', hscan'⟩ := scan_returningBetween
  rw [hscan', Except.ok.injEq, Prod.mk.injEq] at hscan
  obtain ⟨rfl, rfl⟩ := hscan
  obtain ⟨x, rest, hx, hrest, rfl⟩ := List.forall₂_cons_right_iff.1 hchains
  obtain ⟨y, rest, hy, hrest, rfl⟩ := List.forall₂_cons_right_iff.1 hrest
  exact ⟨after', b, _, hb, rfl, x, y, List.rel_of_pairwise_cons hpair List.mem_cons_self,
    ((hmem x.1 x.2).1 List.mem_cons_self).1,
    ((hmem y.1 y.2).1 (List.mem_cons_of_mem x List.mem_cons_self)).1, hx.2, hy.2⟩

end Scanner

end BranchExclusion
