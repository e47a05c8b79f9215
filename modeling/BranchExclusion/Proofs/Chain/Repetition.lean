import BranchExclusion.Proofs.Chain.Placement

/-!
# Scanning again

A block whose conditionals have their branches is left alone by a scan, and what a visit of it
records is the same in every body in which further branches were filled in elsewhere.

* `Body.normalize_of_normal`, `Scanner.scan_of_normal`: a scan of a normal block changes nothing;
* `Body.Filled.returns_eq_ok`: new branches are empty, so they hide or add no `return`;
* `Method.Confirms`: a visit that would be made again in the same way;
* `Method.Scans`: a run of visits, and `Method.Scans.confirms`: each of them is confirmed by the
  method at the end of the run;
* `Method.scans_of_discoverBelow`: discovery is such a run.
-/

namespace BranchExclusion

/-! ### Normal blocks -/

theorem fillBranches_eq_self (next : BlockId) {l : List Statement}
    (h : ∀ c, Statement.conditional c ∈ l → c.thenBranch ≠ none) :
    fillBranches next l = (l, 0) := by
  induction l with
  | nil => rfl
  | cons s l ih =>
    have hs : s.fill next = none := by
      apply Statement.fill_eq_none.2
      rintro c rfl
      exact h c List.mem_cons_self
    rw [fillBranches, hs, ih fun c hc => h c (List.mem_cons_of_mem s hc)]

namespace Body

variable {body after : Body} {id : BlockId} {n m : ℕ}

theorem fill_of_complete (h : body.Complete id) : body.fill id = .ok body := by
  obtain ⟨b, hb, hl⟩ := h
  have hfill : fillBranches body.size b.statements = (b.statements, 0) := by
    apply fillBranches_eq_self
    intro c hc hn
    exact hl ⟨c, hc, hn⟩
  have hempty : body.allocEmpty 0 = body := by simp [allocEmpty]
  rw [fill, hb, ok_bind, hfill]
  show Except.ok ((body.set id b).allocEmpty 0) = _
  rw [set_eq_self hb, hempty]

/-- A loop whose steps change nothing ends where it starts. -/
theorem foldlM_eq_self {f : Body → BlockId → Except Fault Body} {l : List BlockId}
    (h : ∀ x ∈ l, f body x = .ok body) : l.foldlM f body = .ok body := by
  induction l with
  | nil => rfl
  | cons x l ih =>
    rw [List.foldlM_cons, h x List.mem_cons_self, ok_bind]
    exact ih fun y hy => h y (List.mem_cons_of_mem x hy)

theorem normalizeWithin_of_normal (tree : body.TreeShaped) (hn : body.Nests n id)
    (h : body.Normal id) : normalizeWithin n body id = .ok body := by
  induction n generalizing id with
  | zero => exact hn.elim
  | succ n ih =>
    obtain ⟨b, hb⟩ := hn.exists_block
    obtain ⟨rungs, hrungs, hmem⟩ := exists_rungs tree hb
    rw [normalizeWithin, fill_of_complete (h id .refl), ok_bind, hrungs, ok_bind]
    apply foldlM_eq_self
    intro r hr
    have hrung : body.IsRung id r := (hmem r).1 (List.mem_reverse.1 hr)
    exact ih (hn.of_isChild hrung.isChild) fun x hx => h x (.head hrung hx)

theorem normalize_of_normal (tree : body.TreeShaped) (hn : body.Nests n id)
    (hle : n ≤ body.maxDepth) (h : body.Normal id) : body.normalize id = .ok body :=
  normalizeWithin_of_normal tree (hn.mono hle) h

end Body

theorem Scanner.scan_of_normal {s : Scanner} {body : Body} {id : BlockId} {n : ℕ}
    {chains : List Chain} (tree : body.TreeShaped) (hn : body.Nests n id)
    (hle : n ≤ body.maxDepth) (h : body.Normal id) (hc : s.Finds body id chains) :
    s.scan body id = .ok (body, chains) := by
  obtain ⟨b, hb, hy⟩ := hc
  rw [scan, Body.normalize_of_normal tree hn hle h, ok_bind, hb, ok_bind, chainsFrom_eq_ok.2 hy]
  rfl

/-! ### Returns -/

theorem Statement.returns_of_imp {f g : BlockId → Except Body.Fault Bool} {t : Statement} {r : Bool}
    (h : ∀ x ∈ t.childBlocks, ∀ r, f x = .ok r → g x = .ok r) (hr : t.returns f = .ok r) :
    t.returns g = .ok r := by
  induction t with
  | conditional c => exact anyM_eq_ok_of_imp h hr
  | block id => exact h id (by simp) r hr
  | compound c => exact h c.body (by simp) r hr
  | tryStatement t => exact anyM_eq_ok_of_imp h hr
  | labeled label t span ih => exact ih h hr
  | _ => exact hr

/-- The branch that a conditional gets is empty, so it hides or adds no `return`. -/
theorem Statement.Filled.returns {New : BlockId → Prop} {t t' : Statement}
    (h : t.Filled New t') {f g : BlockId → Except Body.Fault Bool} {r : Bool}
    (hold : ∀ x ∈ t.childBlocks, ∀ r, f x = .ok r → g x = .ok r)
    (hnew : ∀ x, New x → ∀ c, t = .conditional c → c.thenBranch = none → g x = .ok false)
    (hr : t.returns f = .ok r) : t'.returns g = .ok r := by
  cases h with
  | same => exact returns_of_imp hold hr
  | branch c x hc hx =>
    have hg : g x = .ok false := hnew x hx c rfl hc
    have hrest : c.elseBranch.toList.anyM g = .ok r := by
      refine anyM_eq_ok_of_imp (f := f) (fun y hy => hold y (by simp [hc, hy])) ?_
      simpa [Statement.returns, hc] using hr
    show (x :: c.elseBranch.toList).anyM g = .ok r
    rw [List.anyM_cons, hg, ok_bind]
    exact hrest

namespace Body

variable {body after : Body} {id : BlockId} {n m : ℕ} {r : Bool}

theorem Filled.returnsWithin (h : body.Filled after) (hn : body.Nests n id) (hle : n ≤ m)
    (hr : body.returnsWithin n id = .ok r) : after.returnsWithin m id = .ok r := by
  induction n generalizing id m r with
  | zero => exact hn.elim
  | succ n ih =>
    obtain ⟨m, rfl⟩ := Nat.exists_eq_add_of_le' (Nat.zero_lt_of_lt hle)
    have hle : n ≤ m := Nat.le_of_succ_le_succ hle
    obtain ⟨b, hb, hc, hl⟩ := hn
    obtain ⟨b', hb', hf⟩ := h.old hb
    rw [Body.returnsWithin, hb, ok_bind] at hr
    rw [Body.returnsWithin, hb', ok_bind]
    -- statement by statement: the old blocks by induction, the new ones have no statement
    have hstatement : ∀ t ∈ b.statements, ∀ t',
        t.Filled (fun x => body.size ≤ x ∧ x < after.size) t' → ∀ r,
        t.returns (body.returnsWithin n) = .ok r → t'.returns (after.returnsWithin m) = .ok r := by
      intro t ht t' hft r hr
      refine hft.returns (fun x hx r hr => ?_) (fun x hx c heq hcn => ?_) hr
      · exact ih (hc x (List.mem_flatMap.2 ⟨t, ht, hx⟩)) hle hr
      · obtain ⟨m, rfl⟩ := Nat.exists_eq_add_of_le' (Nat.lt_of_lt_of_le (hl ⟨c, heq ▸ ht, hcn⟩) hle)
        obtain ⟨e, he⟩ := exists_block hx.2
        rw [h.new hx.1 he] at he
        rw [Body.returnsWithin, he]
        rfl
    have hlist : ∀ l l',
        List.Forall₂ (Statement.Filled fun x => body.size ≤ x ∧ x < after.size) l l' →
        l ⊆ b.statements → ∀ r, l.anyM (Statement.returns (body.returnsWithin n)) = .ok r →
        l'.anyM (Statement.returns (after.returnsWithin m)) = .ok r := by
      intro l l' hl
      induction hl with
      | nil => exact fun _ r hr => hr
      | @cons t t' l l' hft _ ih =>
        intro hsub r hr
        rw [List.anyM_cons, bind_eq_ok] at hr ⊢
        obtain ⟨first, hfirst, hr⟩ := hr
        refine ⟨first, hstatement t (hsub List.mem_cons_self) t' hft first hfirst, ?_⟩
        cases first with
        | true => exact hr
        | false => exact ih (List.subset_of_cons_subset hsub) r hr
    exact hlist _ _ hf.1 (List.Subset.refl _) r hr

theorem Filled.returns_eq_ok (h : body.Filled after) (hn : body.Nests n id)
    (hle : n ≤ body.maxDepth) (hr : body.returns id = .ok r) : after.returns id = .ok r :=
  h.returnsWithin (hn.mono hle) (Nat.succ_le_succ h.size_le) hr

end Body

/-! ### Visits -/

namespace Method

variable {s : Scanner} {index n : ℕ} {m m' : Method} {id : BlockId} {v : Visit}
  {visits : List Visit}

theorem register_filled {next : Body} {c : Chain} {e : Registered} (h : m.body.Filled next)
    (hn : m.body.Nests n id) (hle : n ≤ m.body.maxDepth) (hc : ∀ x ∈ c.members, m.body.Adopts id x)
    (he : m.register index c = .ok e) :
    ({ m with body := next } : Method).register index c = .ok e := by
  unfold register report at he ⊢
  obtain ⟨report, hreport, he⟩ := bind_eq_ok.1 he
  obtain ⟨r, hr, hreport⟩ := bind_eq_ok.1 hreport
  have hr' : (c.members.anyM fun x => next.returns x.thenBranch) = .ok r := by
    refine anyM_eq_ok_of_imp (fun x hx r hr => ?_) hr
    have hbelow : m.body.Reaches id x.thenBranch :=
      Body.reaches_iff.2 (hc x hx).below.to_reflTransGen
    exact h.returns_eq_ok (hn.of_reaches hbelow) hle hr
  exact bind_eq_ok.2 ⟨report, bind_eq_ok.2 ⟨r, hr', hreport⟩, he⟩

theorem visit_eq_ok : m.visit s index id = .ok (m', v) ↔ ∃ body chains found b,
    s.scan m.body id = .ok (body, chains) ∧
    chains.mapM (({ m with body := body } : Method).register index) = .ok found ∧
    body.block id = .ok b ∧ m' = { m with body := body } ∧
    v = ⟨id, b.statements.length, found⟩ := by
  simp only [visit, bind_eq_ok, pure_eq_ok, Except.ok.injEq, Prod.mk.injEq]
  constructor
  · rintro ⟨⟨body, chains⟩, hscan, found, hfound, b, hb, rfl, rfl⟩
    exact ⟨body, chains, found, b, hscan, hfound, hb, rfl, rfl⟩
  · rintro ⟨body, chains, found, b, hscan, hfound, hb, rfl, rfl⟩
    exact ⟨⟨body, chains⟩, hscan, found, hfound, b, hb, rfl, rfl⟩

/-- A visit of the same block makes the same record, and leaves the method as it is. -/
def Confirms (s : Scanner) (index : ℕ) (m : Method) (v : Visit) : Prop :=
  m.visit s index v.block = .ok (m, v)

/-- A visit leaves its block normal, and would be made again in the same way. -/
theorem confirms_of_visit (tree : m.body.TreeShaped) (hn : m.body.Nests n id)
    (hle : n ≤ m.body.maxDepth) (h : m.visit s index id = .ok (m', v)) :
    v.block = id ∧ (∃ after, m' = { m with body := after } ∧ m.body.Filled after ∧
      after.TreeShaped ∧ after.Normal id) ∧ m'.Confirms s index v := by
  obtain ⟨body, chains, found, b, hscan, hfound, hb, rfl, rfl⟩ := visit_eq_ok.1 h
  obtain ⟨after, chains', hscan', hf, htree, hnormal, hfinds⟩ :=
    Scanner.exists_scan (s := s) tree hn hle
  rw [hscan, Except.ok.injEq, Prod.mk.injEq] at hscan'
  obtain ⟨rfl, rfl⟩ := hscan'
  refine ⟨rfl, ⟨body, rfl, hf, htree, hnormal⟩, visit_eq_ok.2 ⟨body, chains, found, b, ?_, hfound,
    hb, rfl, rfl⟩⟩
  have hle' : n ≤ body.maxDepth := Nat.le_trans hle (Nat.succ_le_succ hf.size_le)
  exact Scanner.scan_of_normal htree (hf.nests hn) hle' hnormal hfinds

/-- Branches that are filled in elsewhere do not change what a visit of a normal block records. -/
theorem Confirms.filled {next : Body} (h : m.Confirms s index v) (tree : m.body.TreeShaped)
    (hn : m.body.Nests n v.block) (hle : n ≤ m.body.maxDepth) (hnormal : m.body.Normal v.block)
    (hf : m.body.Filled next) (htree : next.TreeShaped) :
    ({ m with body := next } : Method).Confirms s index v := by
  obtain ⟨body, chains, found, b, hscan, hfound, hb, heq, hv⟩ := visit_eq_ok.1 h
  obtain rfl : m.body = body := congrArg Method.body heq
  obtain ⟨after, chains', hscan', -, -, -, hfinds⟩ := Scanner.exists_scan (s := s) tree hn hle
  rw [hscan, Except.ok.injEq, Prod.mk.injEq] at hscan'
  obtain ⟨rfl, rfl⟩ := hscan'
  have hle' : n ≤ next.maxDepth := Nat.le_trans hle (Nat.succ_le_succ hf.size_le)
  refine visit_eq_ok.2 ⟨next, chains, found, b, ?_, ?_, ?_, rfl, hv⟩
  · exact Scanner.scan_of_normal htree (hf.nests hn) hle' (hf.normal tree hnormal)
      (hfinds.filled hf hnormal)
  · rw [mapM_eq_ok] at hfound ⊢
    refine forall₂_imp_mem hfound fun c hc e _ he => ?_
    exact register_filled (m := m) hf hn hle (fun x hx => hfinds.adopts hc hx) he
  · exact hf.block_eq hb ((hnormal v.block .refl).not_lacksBranch hb)

/-! ### Runs of visits -/

/-- The visits of a run, each in the method that the one before it left. Every visited block lies
below the root. -/
inductive Scans (s : Scanner) (index : ℕ) : Method → List Visit → Method → Prop
  | nil (m : Method) : Scans s index m [] m
  | cons {m m' last : Method} {v : Visit} {visits : List Visit} : m.body.Reaches Body.root v.block →
      m.visit s index v.block = .ok (m', v) → Scans s index m' visits last →
      Scans s index m (v :: visits) last

namespace Scans

variable {last : Method} {more : List Visit}

theorem append (h : Scans s index m visits m') (h' : Scans s index m' more last) :
    Scans s index m (visits ++ more) last := by
  induction h with
  | nil => exact h'
  | cons hr hv _ ih => exact .cons hr hv (ih h')

/-- A run fills in branches and does nothing else. -/
theorem filled (h : Scans s index m visits m') (tree : m.body.TreeShaped) :
    ∃ after, m' = { m with body := after } ∧ m.body.Filled after ∧ after.TreeShaped := by
  induction h with
  | nil m => exact ⟨m.body, rfl, .refl _, tree⟩
  | cons hr hv _ ih =>
    obtain ⟨-, ⟨next, rfl, hf, htree, -⟩, -⟩ :=
      confirms_of_visit tree (tree.nests_root.of_reaches hr) (Nat.le_refl _) hv
    obtain ⟨after, rfl, hfa, hta⟩ := ih htree
    exact ⟨after, rfl, hf.trans hfa, hta⟩

/-- At the end of a run every visit of it would be made again in the same way. -/
theorem confirms (h : Scans s index m visits m') (tree : m.body.TreeShaped) (hv : v ∈ visits) :
    m'.Confirms s index v := by
  induction h with
  | nil => cases hv
  | cons hr hvisit hrest ih =>
    have hn := tree.nests_root.of_reaches hr
    obtain ⟨-, ⟨next, rfl, hf, htree, hnormal⟩, hconfirm⟩ :=
      confirms_of_visit tree hn (Nat.le_refl _) hvisit
    rcases List.mem_cons.1 hv with rfl | hv
    · obtain ⟨after, rfl, hfa, hta⟩ := hrest.filled htree
      exact hconfirm.filled htree (hf.nests hn) (Nat.succ_le_succ hf.size_le) hnormal hfa hta
    · exact ih htree hv

end Scans

/-- Discovery below a block is a run of visits. -/
theorem scans_of_discoverBelow {fuel : ℕ} (tree : m.body.TreeShaped)
    (hr : m.body.Reaches Body.root id) (h : m.discoverBelow s index fuel id = .ok (m', visits)) :
    Scans s index m visits m' := by
  induction fuel generalizing m id m' visits with
  | zero => cases h
  | succ fuel ih =>
    simp only [discoverBelow_succ, bind_eq_ok] at h
    obtain ⟨⟨m₁, here⟩, hvisit, b, hb, ⟨m₂, below⟩, hfold, h⟩ := h
    cases h
    have hn := tree.nests_root.of_reaches hr
    obtain ⟨rfl, ⟨first, rfl, hf, htree, -⟩, -⟩ :=
      confirms_of_visit tree hn (Nat.le_refl _) hvisit
    refine .cons hr hvisit ?_
    -- along the children, the visits so far are a run that starts behind the visit of the block
    have run := foldlM_eq_ok hfold (fun _ r => Scans s index { m with body := first } r.2 r.1)
      (.nil _) ?_
    · exact run
    · rintro done c rest ⟨cur, visits⟩ ⟨next, all⟩ hl hrun hstep
      obtain ⟨⟨m₃, more⟩, hmore, hstep⟩ := bind_eq_ok.1 hstep
      cases hstep
      obtain ⟨now, rfl, hfn, htn⟩ := hrun.filled htree
      have hc : first.IsChild here.block c := (Body.isChild_iff hb).2 (hl ▸ by simp)
      have hrc : now.Reaches Body.root c :=
        .child ((hf.trans hfn).reaches hr) (hfn.isChild hc)
      exact hrun.append (ih htn hrc hmore)

end Method

end BranchExclusion
