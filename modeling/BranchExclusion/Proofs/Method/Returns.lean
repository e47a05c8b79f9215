import BranchExclusion.Proofs.Chain.Removal
import BranchExclusion.Proofs.Chain.Repetition
import BranchExclusion.Proofs.Method.Rendering

/-!
# The returns that a report tells of

The report of a chain says whether control returns from the method inside a branch of the chain. It
is made when the chain is found, while later scans and the instrumentation still change the body.

* `Statement.IsReturn`, `Body.ReturnsBelow`: a `return`, maybe behind labels, and a block that leads
  to one;
* `Body.returnsWithin_iff`: the search finds exactly these blocks;
* `Body.Filled.returnsBelow_iff`, `Body.Woven.returnsWithin`: new branches and flags do not count;
* `Method.Tells`: a report that a chain gets in a body, with its flag told by what is in the body;
* `Method.returns_reported`: every report is the one of the body in which its chain was found, of
  the body that discovery leaves and of the instrumented one.
-/

namespace BranchExclusion

/-- Elements that were added count for nothing when the search finds nothing in them. -/
theorem Layout.Adds.anyM_eq {ε α : Type} {f : α → Except ε Bool} {P : α → Prop} {n : ℕ}
    {l new : List α} (h : Layout.Adds P n l new) (hquiet : ∀ a, P a → f a = .ok false) :
    new.anyM f = l.anyM f := by
  induction h with
  | nil => rfl
  | keep a _ ih => rw [List.anyM_cons, List.anyM_cons, ih]
  | add ha _ ih => rw [List.anyM_cons, hquiet _ ha, ok_bind, ← ih]; rfl

/-! ### Statements -/

namespace Statement

variable {f : BlockId → Except Body.Fault Bool} {t : Statement}

/-- The statement returns from the method, maybe behind labels. -/
def IsReturn (t : Statement) : Prop := ∃ v, t.unlabeled = .exit .returns v

theorem returns_eq_anyM (h : t.unlabeled.isExit = false) :
    t.returns f = t.childBlocks.anyM f := by
  induction t with
  | exit => cases h
  | block id => exact (anyM_singleton f id).symm
  | compound c => exact (anyM_singleton f c.body).symm
  | labeled label t span ih => exact ih h
  | _ => rfl

theorem returns_exit {kind : ExitKind} {v : Verbatim} (h : t.unlabeled = .exit kind v) :
    t.returns f = .ok (kind == .returns) := by
  induction t with
  | exit => cases h; rfl
  | labeled label t span ih => exact ih h
  | _ => cases h

/-- An exit owns no blocks, and every other statement is searched by the blocks that it owns. -/
theorem returns_cases (f : BlockId → Except Body.Fault Bool) (t : Statement) :
    (∃ kind v, t.unlabeled = .exit kind v ∧ t.childBlocks = [] ∧
      t.returns f = .ok (kind == .returns)) ∨
    t.unlabeled.isExit = false ∧ t.returns f = t.childBlocks.anyM f := by
  cases hu : t.unlabeled with
  | exit kind v =>
    refine .inl ⟨kind, v, rfl, ?_, returns_exit hu⟩
    rw [← t.childBlocks_unlabeled, hu]
    rfl
  | _ => exact .inr ⟨rfl, returns_eq_anyM (by rw [hu]; rfl)⟩

theorem of_returns_eq_true (h : t.returns f = .ok true) :
    t.IsReturn ∨ ∃ x ∈ t.childBlocks, f x = .ok true := by
  rcases returns_cases f t with ⟨kind, v, hu, -, heq⟩ | ⟨-, heq⟩
  · rw [heq, Except.ok.injEq, beq_iff_eq] at h
    exact .inl ⟨v, h ▸ hu⟩
  · exact .inr (exists_of_anyM_eq_true (heq ▸ h))

theorem of_returns_eq_false (h : t.returns f = .ok false) :
    ¬ t.IsReturn ∧ ∀ x ∈ t.childBlocks, f x = .ok false := by
  rcases returns_cases f t with ⟨kind, v, hu, hnone, heq⟩ | ⟨hexit, heq⟩
  · rw [heq, Except.ok.injEq] at h
    refine ⟨?_, fun x hx => absurd (hnone ▸ hx) List.not_mem_nil⟩
    rintro ⟨v', hv'⟩
    rw [hu] at hv'
    cases hv'
    cases h
  · refine ⟨?_, anyM_eq_false.1 (heq ▸ h)⟩
    rintro ⟨v, hv⟩
    rw [hv] at hexit
    cases hexit

end Statement

theorem FlagStyle.Inserts.returns {style : FlagStyle} {chains : List Chain} {t : Statement}
    (h : style.Inserts chains t) (f : BlockId → Except Body.Fault Bool) :
    t.returns f = .ok false := by
  cases h <;> rfl

/-! ### Blocks -/

namespace Body

variable {body after placed : Body} {id p : BlockId} {n : ℕ} {r : Bool}

/-- Block `id`, or some block below it, directly contains a `return`. -/
def ReturnsBelow (body : Body) (id : BlockId) : Prop :=
  ∃ x b t, body.Reaches id x ∧ body.block x = .ok b ∧ t ∈ b.statements ∧ t.IsReturn

theorem ReturnsBelow.of_isChild (hc : body.IsChild p id) (h : body.ReturnsBelow id) :
    body.ReturnsBelow p := by
  obtain ⟨x, b, t, hr, hb, ht, hret⟩ := h
  exact ⟨x, b, t, .head hc hr, hb, ht, hret⟩

/-- The search finds a `return` exactly where there is one. -/
theorem returnsWithin_iff (h : body.returnsWithin n id = .ok r) :
    r = true ↔ body.ReturnsBelow id := by
  induction n generalizing id r with
  | zero => cases h
  | succ n ih =>
    obtain ⟨b, hb, h⟩ := bind_eq_ok.1 h
    cases r with
    | true =>
      refine iff_of_true rfl ?_
      obtain ⟨t, ht, htrue⟩ := exists_of_anyM_eq_true h
      rcases Statement.of_returns_eq_true htrue with hret | ⟨x, hx, hxtrue⟩
      · exact ⟨id, b, t, .self, hb, ht, hret⟩
      · have hchild : body.IsChild id x := ⟨b, hb, List.mem_flatMap.2 ⟨t, ht, hx⟩⟩
        exact .of_isChild hchild ((ih hxtrue).1 rfl)
    | false =>
      refine iff_of_false Bool.false_ne_true ?_
      rintro ⟨y, b', t, hr, hb', ht, hret⟩
      rcases Relation.ReflTransGen.cases_head_iff.1 (reaches_iff.1 hr) with rfl | ⟨c, hc, hr⟩
      · obtain rfl := block_unique hb hb'
        exact (Statement.of_returns_eq_false (anyM_eq_false.1 h t ht)).1 hret
      · -- the search went through every child and came back with nothing
        obtain ⟨u, hu, hcu⟩ := List.mem_flatMap.1 ((isChild_iff hb).1 hc)
        have hfalse := (Statement.of_returns_eq_false (anyM_eq_false.1 h u hu)).2 c hcu
        exact Bool.false_ne_true ((ih hfalse).2 ⟨y, b', t, reaches_iff.2 hr, hb', ht, hret⟩)

/-- The search in a block of a tree comes to an end. -/
theorem TreeShaped.exists_returns (tree : body.TreeShaped) (h : body.Reaches root id) :
    ∃ r, body.returns id = .ok r :=
  (tree.nests_root.of_reaches h).exists_returnsWithin

/-- A new branch is empty, so no `return` comes in and none is hidden. -/
theorem Filled.returnsBelow_iff (h : body.Filled after) :
    after.ReturnsBelow id ↔ body.ReturnsBelow id := by
  constructor
  · rintro ⟨x, b', t, hr, hb', ht, hret⟩
    rcases h.cases_block hb' with ⟨b, hb, hf⟩ | ⟨-, rfl⟩
    · have hr' := (h.reaches_old hr).resolve_right (Nat.not_le.2 (lt_size_of_block_eq_ok hb))
      obtain ⟨u, hu, hut⟩ := forall₂_exists_left hf.1 ht
      cases hut with
      | same => exact ⟨x, b, t, hr', hb, hu, hret⟩
      | branch c y =>
        obtain ⟨v, hv⟩ := hret
        cases hv
    · cases ht
  · rintro ⟨x, b, t, hr, hb, ht, hret⟩
    obtain ⟨b', hb', hf⟩ := h.old hb
    obtain ⟨u, hu, htu⟩ := forall₂_exists_right hf.1 ht
    cases htu with
    | same => exact ⟨x, b', t, h.reaches hr, hb', hu, hret⟩
    | branch c y =>
      obtain ⟨v, hv⟩ := hret
      cases hv

/-- Declarations, assignments and assertions do not return, so instrumentation keeps the answers. -/
theorem Woven.returnsWithin {style : FlagStyle} {chains : List Chain}
    (hw : body.Woven placed (style.declarations chains)
      (style.raises (chains.flatMap Chain.members)) (style.exclusions chains))
    (h : body.returnsWithin n id = .ok r) : placed.returnsWithin n id = .ok r := by
  induction n generalizing id r with
  | zero => cases h
  | succ n ih =>
    obtain ⟨b, hb, h⟩ := bind_eq_ok.1 h
    obtain ⟨b', hb', hadds⟩ := hw.adds hb
    refine bind_eq_ok.2 ⟨b', hb', ?_⟩
    rw [hadds.anyM_eq fun t ht => ht.returns _]
    exact anyM_eq_ok_of_imp (fun t _ r => Statement.returns_of_imp fun x _ r => ih) h

end Body

/-! ### Reports -/

namespace Method

variable {s : Scanner} {index : ℕ} {m mid last : Method} {v : Visit} {visits more : List Visit}
  {e : Registered} {c : Chain} {r : ChainReport}

/-- The flag of a report is told by the branches of the chain. -/
theorem returnsFromBranch_iff (h : m.report c = .ok r) :
    r.returnsFromBranch = true ↔ ∃ x ∈ c.members, m.body.ReturnsBelow x.thenBranch := by
  obtain ⟨flag, hflag, h⟩ := bind_eq_ok.1 h
  cases h
  cases flag with
  | true =>
    obtain ⟨x, hx, htrue⟩ := exists_of_anyM_eq_true hflag
    exact iff_of_true rfl ⟨x, hx, (Body.returnsWithin_iff htrue).1 rfl⟩
  | false =>
    refine iff_of_false Bool.false_ne_true ?_
    rintro ⟨x, hx, hret⟩
    exact Bool.false_ne_true ((Body.returnsWithin_iff (anyM_eq_false.1 hflag x hx)).2 hret)

/-- A visit that would be made again gives its chains the same reports again. -/
theorem Confirms.report_eq (h : m.Confirms s index v) (he : e ∈ v.found) :
    m.report e.chain = .ok e.report := by
  obtain ⟨body, chains, found, b, -, hfound, -, heq, hv⟩ := visit_eq_ok.1 h
  obtain rfl : m.body = body := congrArg Method.body heq
  rw [hv] at he
  obtain ⟨c, -, hc⟩ := forall₂_exists_left (mapM_eq_ok.1 hfound) he
  obtain ⟨report, hreport, h⟩ := bind_eq_ok.1 hc
  cases h
  exact hreport

/-- A run can be stopped after any of its visits. -/
theorem Scans.of_append (h : Scans s index m (visits ++ more) last) :
    ∃ mid, Scans s index m visits mid ∧ Scans s index mid more last := by
  induction visits generalizing m with
  | nil => exact ⟨m, .nil m, h⟩
  | cons v visits ih =>
    cases h with
    | cons hr hv hrest =>
      obtain ⟨mid, hfirst, hmore⟩ := ih hrest
      exact ⟨mid, .cons hr hv hfirst, hmore⟩

/-- Instrumentation leaves the reports as they are. -/
theorem report_of_woven {after placed : Body} {style : FlagStyle} {chains : List Chain}
    (hw : after.Woven placed (style.declarations chains)
      (style.raises (chains.flatMap Chain.members)) (style.exclusions chains))
    (h : ({ m with body := after } : Method).report c = .ok r) :
    ({ m with body := placed } : Method).report c = .ok r := by
  obtain ⟨flag, hflag, h⟩ := bind_eq_ok.1 h
  refine bind_eq_ok.2 ⟨flag, anyM_eq_ok_of_imp (fun x _ r hr => ?_) hflag, h⟩
  have hdepth : placed.maxDepth = after.maxDepth := congrArg (· + 1) hw.size_eq
  show placed.returnsWithin placed.maxDepth x.thenBranch = .ok r
  rw [hdepth]
  exact hw.returnsWithin hr

/-- The chain of `e` gets the report of `e` in `body`, and the flag of the report is raised exactly
when a branch of the chain leads to a `return` there. -/
def Tells (m : Method) (e : Registered) (body : Body) : Prop :=
  ({ m with body := body } : Method).report e.chain = .ok e.report ∧
    (e.report.returnsFromBranch = true ↔
      ∃ x ∈ e.chain.members, body.ReturnsBelow x.thenBranch)

theorem tells_of_report {body : Body}
    (h : ({ m with body := body } : Method).report e.chain = .ok e.report) : m.Tells e body :=
  ⟨h, returnsFromBranch_iff h⟩

/-- **Every report tells exactly of the returns in the branches of its chain.** The search for a
`return` comes to an end in every block. Let `v` be a visit of the discovery, `e` a chain that it
registers and `now` the body at that time. The report of `e` is the same in `now`, in the body that
discovery leaves and in the one that instrumentation leaves, and it tells of the `return`s in each
of them, which are those of the body before discovery. -/
theorem returns_reported (s : Scanner) (index : ℕ) (m : Method) (tree : m.body.TreeShaped) :
    (∀ id, m.body.Reaches Body.root id →
      ∃ r, m.body.returns id = .ok r ∧ (r = true ↔ m.body.ReturnsBelow id)) ∧
    ∃ after visits, m.discover s index = .ok ({ m with body := after }, visits) ∧
      ∀ pre v post, visits = pre ++ v :: post →
        ∃ now, Scans s index m (pre ++ [v]) { m with body := now } ∧
          ∀ e ∈ v.found, m.Tells e now ∧ m.Tells e after ∧
            (∀ style declaration placed outcome,
              after.instrument style ((Registry.empty.add visits).forMethod index) declaration =
                .ok (placed, outcome) → m.Tells e placed) ∧
            (e.report.returnsFromBranch = true ↔
              ∃ x ∈ e.chain.members, m.body.ReturnsBelow x.thenBranch) := by
  refine ⟨fun id hid => ?_, ?_⟩
  · obtain ⟨r, hr⟩ := tree.exists_returns hid
    exact ⟨r, hr, Body.returnsWithin_iff hr⟩
  obtain ⟨after, visits, hdiscover, hf, -, -, hwoven⟩ := m.exists_woven s index tree
  have hscans : Scans s index m visits { m with body := after } :=
    scans_of_discoverBelow tree .self hdiscover
  refine ⟨after, visits, hdiscover, fun pre v post hsplit => ?_⟩
  have hmem : v ∈ visits := hsplit ▸ List.mem_append_right pre List.mem_cons_self
  have hcut : Scans s index m ((pre ++ [v]) ++ post) { m with body := after } := by
    rwa [List.append_assoc, List.singleton_append, ← hsplit]
  obtain ⟨mid, hfirst, -⟩ := hcut.of_append
  obtain ⟨now, rfl, -⟩ := hfirst.filled tree
  refine ⟨now, hfirst, fun e he => ?_⟩
  have hlast : v ∈ pre ++ [v] := List.mem_append_right pre (List.mem_singleton_self v)
  have hnow := (hfirst.confirms tree hlast).report_eq he
  have hafter := (hscans.confirms tree hmem).report_eq he
  refine ⟨tells_of_report hnow, tells_of_report hafter, fun _ _ placed _ h => ?_, ?_⟩
  · exact tells_of_report (report_of_woven (hwoven h).2 hafter)
  · rw [returnsFromBranch_iff hafter]
    simp only [hf.returnsBelow_iff]

/-! ### A return behind labels -/

/-- A conditional whose branch holds a labeled loop, in which a `try` returns from its final block,
and a conditional without a branch. -/
def returning : Method where
  owner := "A"
  name := "f"
  span := .zero
  bodyRange := .zero
  indent := ""
  body := ⟨#[
    ⟨[.conditional ⟨3, .source "a", some 1, none, .zero⟩,
      .conditional ⟨9, .source "b", none, none, .zero⟩], .zero, true, false, false⟩,
    ⟨[.labeled "out" (.compound ⟨.whileLoop, "while (c)", 2, none, .zero⟩) .zero],
      .zero, true, false, false⟩,
    ⟨[.tryStatement ⟨"try", 3, [], some 4, .zero⟩], .zero, true, false, false⟩,
    ⟨[.exit .breaks ⟨"break out;", .zero, .zero⟩], .zero, true, false, false⟩,
    ⟨[.labeled "in" (.exit .returns ⟨"return;", .zero, .zero⟩) .zero],
      .zero, true, false, false⟩]⟩

/-- Its body with the missing branch filled in. -/
def returningBody : Body := ⟨#[
  ⟨[.conditional ⟨3, .source "a", some 1, none, .zero⟩,
    .conditional ⟨9, .source "b", some 5, none, .zero⟩], .zero, true, false, false⟩,
  ⟨[.labeled "out" (.compound ⟨.whileLoop, "while (c)", 2, none, .zero⟩) .zero],
    .zero, true, false, false⟩,
  ⟨[.tryStatement ⟨"try", 3, [], some 4, .zero⟩], .zero, true, false, false⟩,
  ⟨[.exit .breaks ⟨"break out;", .zero, .zero⟩], .zero, true, false, false⟩,
  ⟨[.labeled "in" (.exit .returns ⟨"return;", .zero, .zero⟩) .zero], .zero, true, false, false⟩,
  .synthetic]⟩

/-- Its one chain, with the report. -/
def returningChain : Registered :=
  ⟨7, ⟨Body.root, [⟨3, 1⟩, ⟨9, 5⟩], by decide⟩, ⟨"A", "f", 3, [3, 9], true⟩⟩

/-- The visits below its root. -/
def returningVisits : List Visit := [⟨1, 1, []⟩, ⟨2, 1, []⟩, ⟨3, 1, []⟩, ⟨4, 1, []⟩, ⟨5, 0, []⟩]

theorem treeShaped_returning : returning.body.TreeShaped :=
  ⟨by decide, by decide, by decide, by decide⟩

theorem discover_returning : returning.discover .standard 7 =
    .ok ({ returning with body := returningBody },
      ⟨0, 2, [returningChain]⟩ :: returningVisits) := by
  decide +kernel

/-- The report of its chain tells of the `return`, before and after instrumentation. -/
theorem returns_reported_labeled : returning.body.TreeShaped ∧ ∃ placed outcome,
    returningBody.instrument .standard [returningChain.chain] "A.f" = .ok (placed, outcome) ∧
      returning.Tells returningChain returningBody ∧ returning.Tells returningChain placed ∧
      ∃ x ∈ returningChain.chain.members, returning.body.ReturnsBelow x.thenBranch := by
  obtain ⟨-, after, visits, hdiscover, h⟩ :=
    returns_reported .standard 7 returning treeShaped_returning
  rw [discover_returning, Except.ok.injEq, Prod.mk.injEq] at hdiscover
  obtain ⟨hbody, rfl⟩ := hdiscover
  obtain rfl : returningBody = after := congrArg Method.body hbody
  obtain ⟨now, -, h⟩ := h [] _ _ rfl
  obtain ⟨-, hafter, hplaced, hreturns⟩ := h returningChain (List.mem_singleton_self _)
  exact ⟨treeShaped_returning, _, _, rfl, hafter, hplaced .standard "A.f" _ _ rfl, hreturns.1 rfl⟩

end Method

end BranchExclusion
