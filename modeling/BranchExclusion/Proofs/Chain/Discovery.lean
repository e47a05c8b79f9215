import BranchExclusion.Chain.Discovery
import BranchExclusion.Proofs.Chain.Members

/-!
# Discovery

Discovery scans a block, then the blocks below it, while every scan fills in branches. What it finds
is what one would find block by block in the body that it leaves.

* `Scanner.Discovers`: the chains of all blocks of a body, owners before what they own;
* `Method.Visited`: what holds while the children of a block are visited one after the other;
* `Method.exists_discover_of_treeShaped`: discovery succeeds, fills in branches and does nothing
  else to the body, and finds these chains.
-/

namespace BranchExclusion

theorem Statement.exists_returns {inBlock : BlockId → Except Body.Fault Bool} {t : Statement}
    (h : ∀ x ∈ t.childBlocks, ∃ r, inBlock x = .ok r) : ∃ r, t.returns inBlock = .ok r := by
  induction t with
  | conditional c => exact exists_anyM h
  | block id => exact h id (by simp)
  | exit kind v => exact ⟨_, rfl⟩
  | compound c => exact h c.body (by simp)
  | tryStatement t => exact exists_anyM h
  | labeled label t span ih => exact ih h
  | _ => exact ⟨false, rfl⟩

theorem Body.Nests.exists_returnsWithin {body : Body} {n : ℕ} {id : BlockId}
    (h : body.Nests n id) : ∃ r, body.returnsWithin n id = .ok r := by
  induction n generalizing id with
  | zero => exact h.elim
  | succ n ih =>
    have ⟨b, hb, hc, _⟩ := h
    rw [returnsWithin, hb, ok_bind]
    refine exists_anyM fun t ht => Statement.exists_returns fun x hx => ih (hc x ?_)
    exact List.mem_flatMap.2 ⟨t, ht, hx⟩

namespace Scanner

/-- The chains of all blocks of a normal body, owners before what they own. -/
def Discovers (s : Scanner) (body : Body) (chains : List Chain) : Prop :=
  ∃ ids lists, body.reachable = .ok ids ∧ List.Forall₂ (s.Finds body) ids lists ∧
    chains = lists.flatten ∧ ∀ id ∈ ids, body.Normal id

/-- The visit of a block records the chains of the block. -/
def Records (s : Scanner) (index : ℕ) (body : Body) (v : Visit) : Prop :=
  body.Normal v.block ∧ s.Finds body v.block (v.found.map Registered.chain) ∧
    ∀ e ∈ v.found, e.method = index

theorem Records.filled {s : Scanner} {index : ℕ} {body after : Body} {v : Visit}
    (tree : body.TreeShaped) (h : body.Filled after) (hv : s.Records index body v) :
    s.Records index after v :=
  ⟨h.normal tree hv.1, hv.2.1.filled h hv.1, hv.2.2⟩

end Scanner

namespace Method

variable {s : Scanner} {index : ℕ} {m : Method} {id : BlockId} {n : ℕ}

/-- Chains whose branches lie below a block of the body can be registered. -/
theorem exists_register (index : ℕ) {chains : List Chain} (hn : m.body.Nests n id)
    (hle : n ≤ m.body.maxDepth) (hc : ∀ c ∈ chains, ∀ x ∈ c.members, m.body.Adopts id x) :
    ∃ found, chains.mapM (m.register index) = .ok found ∧ found.map Registered.chain = chains ∧
      ∀ e ∈ found, e.method = index := by
  induction chains with
  | nil => exact ⟨[], rfl, rfl, by simp⟩
  | cons c chains ih =>
    obtain ⟨found, hfound, hchains, hindex⟩ := ih fun d hd => hc d (List.mem_cons_of_mem c hd)
    obtain ⟨r, hr⟩ : ∃ r, (c.members.anyM fun x => m.body.returns x.thenBranch) = .ok r := by
      refine exists_anyM fun x hx => ?_
      have hbelow := (hc c List.mem_cons_self x hx).below.to_reflTransGen
      exact ((hn.of_reaches (Body.reaches_iff.2 hbelow)).mono hle).exists_returnsWithin
    have hone : m.register index c =
        .ok ⟨index, c, ⟨m.owner, m.name, c.firstLine, c.lines, r⟩⟩ := by
      rw [register, report, hr]
      rfl
    refine ⟨⟨index, c, ⟨m.owner, m.name, c.firstLine, c.lines, r⟩⟩ :: found, ?_, ?_, ?_⟩
    · rw [List.mapM_cons, hone, ok_bind, hfound]
      rfl
    · rw [List.map_cons, hchains]
    · simpa using hindex

theorem exists_visit (s : Scanner) (index : ℕ) (tree : m.body.TreeShaped)
    (hn : m.body.Nests n id) (hle : n ≤ m.body.maxDepth) : ∃ after v,
      m.visit s index id = .ok ({ m with body := after }, v) ∧
      m.body.Filled after ∧ after.TreeShaped ∧ v.block = id ∧ s.Records index after v := by
  obtain ⟨after, chains, hscan, hf, htree, hnormal, b, hb, hy⟩ :=
    Scanner.exists_scan (s := s) tree hn hle
  have hle' : n ≤ after.maxDepth := Nat.le_trans hle (Nat.succ_le_succ hf.size_le)
  have hadopts : ∀ c ∈ chains, ∀ x ∈ c.members, after.Adopts id x := by
    intro c hc x hx
    have hmem := hy.sublist_offers.subset (List.mem_flatMap.2 ⟨c, hc, hx⟩)
    obtain ⟨t, ht, hx⟩ := List.mem_flatMap.1 hmem
    exact Body.adopts_of_mem_offers hb ht hx
  obtain ⟨found, hfound, hchains, hindex⟩ := exists_register (m := { m with body := after }) index
    (hf.nests hn) hle' hadopts
  refine ⟨after, ⟨id, b.statements.length, found⟩, ?_, hf, htree, rfl, hnormal, ?_, hindex⟩
  · rw [visit, hscan, ok_bind]
    simp only [hfound, hb, ok_bind]
    rfl
  · exact ⟨b, hb, hchains ▸ hy⟩

/-! ### The blocks below a block -/

/-- The visit of one more child, with all blocks below it. -/
def visitChild (s : Scanner) (index fuel : ℕ) (r : Method × List Visit) (child : BlockId) :
    Except Body.Fault (Method × List Visit) :=
  r.1.discoverBelow s index fuel child >>= fun next => .ok (next.1, r.2 ++ next.2)

theorem discoverBelow_succ (s : Scanner) (index fuel : ℕ) (m : Method) (id : BlockId) :
    m.discoverBelow s index (fuel + 1) id = m.visit s index id >>= fun here =>
      here.1.body.block id >>= fun b =>
        b.childBlocks.foldlM (visitChild s index fuel) (here.1, []) >>= fun r =>
          .ok (r.1, here.2 :: r.2) := rfl

/-- What holds of the method and its visits when the children `done` of a block were visited: only
branches were filled in, and the visits record the blocks below these children. -/
def Visited (s : Scanner) (index fuel : ℕ) (m : Method) (done : List BlockId)
    (r : Method × List Visit) : Prop :=
  ∃ now, r.1 = { m with body := now } ∧ m.body.Filled now ∧ now.TreeShaped ∧
    ∃ lists, List.Forall₂ (fun c l => now.below fuel c = .ok l) done lists ∧
      r.2.map Visit.block = lists.flatten ∧ ∀ v ∈ r.2, s.Records index now v

/-- One more child: what was recorded before stays recorded in the body that its visit leaves. -/
theorem visited_append {fuel : ℕ} {done : List BlockId} {c : BlockId} {now next : Body}
    {visits more : List Visit}
    (h : Visited s index fuel m done ({ m with body := now }, visits)) (htree : now.TreeShaped)
    (hf : now.Filled next) (htree' : next.TreeShaped)
    (hbelow : next.below fuel c = .ok (more.map Visit.block))
    (hmore : ∀ v ∈ more, s.Records index next v) :
    Visited s index fuel m (done ++ [c]) ({ m with body := next }, visits ++ more) := by
  obtain ⟨now', heq, hfn, -, lists, hlists, hvisits, hrec⟩ := h
  obtain rfl : now = now' := congrArg Method.body heq
  refine ⟨next, rfl, hfn.trans hf, htree', lists ++ [more.map Visit.block], ?_, ?_, ?_⟩
  · refine List.rel_append (forall₂_imp_mem hlists fun d _ l hm hd => ?_) (.cons hbelow .nil)
    refine hf.below hd fun x hx => ?_
    have hx' : x ∈ visits.map Visit.block := hvisits ▸ List.mem_flatten.2 ⟨l, hm, hx⟩
    obtain ⟨v, hv, rfl⟩ := List.mem_map.1 hx'
    exact (hrec v hv).1 _ .refl
  · rw [List.map_append, hvisits]
    simp
  · intro v hv
    rcases List.mem_append.1 hv with hv | hv
    · exact (hrec v hv).filled htree hf
    · exact hmore v hv

/-- Discovery below a block succeeds and visits the blocks of the body that it leaves, each with the
chains of that body. -/
theorem exists_discoverBelow (s : Scanner) (index : ℕ) {fuel : ℕ} (tree : m.body.TreeShaped)
    (hn : m.body.Nests n id) (hle : n ≤ m.body.maxDepth) (hfuel : n ≤ fuel) : ∃ after visits,
      m.discoverBelow s index fuel id = .ok ({ m with body := after }, visits) ∧
      m.body.Filled after ∧ after.TreeShaped ∧
      after.below fuel id = .ok (visits.map Visit.block) ∧
      ∀ v ∈ visits, s.Records index after v := by
  induction fuel generalizing m id n with
  | zero =>
    obtain rfl := Nat.le_zero.1 hfuel
    exact hn.elim
  | succ fuel ih =>
    obtain ⟨n, rfl⟩ : ∃ k, n = k + 1 := by
      cases n with
      | zero => exact hn.elim
      | succ k => exact ⟨k, rfl⟩
    obtain ⟨first, here, hvisit, hf, htree, rfl, hhere⟩ := exists_visit s index tree hn hle
    have hn' := hf.nests hn
    have hle' : n + 1 ≤ first.maxDepth := Nat.le_trans hle (Nat.succ_le_succ hf.size_le)
    obtain ⟨b, hb, hlacks⟩ := hhere.1 here.block .refl
    have step : ∀ done c rest r, b.childBlocks = done ++ c :: rest →
        Visited s index fuel { m with body := first } done r → ∃ r',
          visitChild s index fuel r c = .ok r' ∧
            Visited s index fuel { m with body := first } (done ++ [c]) r' := by
      rintro done c rest ⟨cur, visits⟩ hl hdone
      have ⟨now, heq, hfn, htn, _⟩ := hdone
      subst heq
      have hc : first.IsChild here.block c := (Body.isChild_iff hb).2 (hl ▸ by simp)
      -- the blocks below the child need one level less, and filling in keeps this
      have hnc : now.Nests n c := hfn.nests (hn'.of_isChild hc)
      have hlen : n ≤ now.maxDepth :=
        Nat.le_of_succ_le (Nat.le_trans hle' (Nat.succ_le_succ hfn.size_le))
      obtain ⟨next, more, hmore, hfn', htn', hbelow, hrec⟩ := ih (m := { m with body := now }) htn
        hnc hlen (Nat.le_of_succ_le_succ hfuel)
      refine ⟨({ m with body := next }, visits ++ more), ?_,
        visited_append hdone htn hfn' htn' hbelow hrec⟩
      rw [visitChild, hmore]
      rfl
    have start : Visited s index fuel { m with body := first } [] ({ m with body := first }, []) :=
      ⟨first, rfl, .refl _, htree, [], .nil, rfl, by simp⟩
    obtain ⟨⟨-, visits⟩, hfold, after, rfl, hfa, hta, lists, hlists, hvisits, hrec⟩ :=
      exists_foldlM (Visited s index fuel { m with body := first }) start step
    refine ⟨after, here :: visits, ?_, hf.trans hfa, hta, ?_, ?_⟩
    · rw [discoverBelow_succ, hvisit, ok_bind, hb, ok_bind, hfold]
      rfl
    · rw [List.map_cons, hvisits]
      exact Body.below_succ.2 ⟨b, lists, hfa.block_eq hb hlacks, hlists, rfl⟩
    · intro v hv
      rcases List.mem_cons.1 hv with rfl | hv
      · exact hhere.filled htree hfa
      · exact hrec v hv

/-- Discovery registers what it finds under the index of the method. -/
theorem method_of_discover (tree : m.body.TreeShaped) {r : Method × List Visit}
    (h : m.discover s index = .ok r) : ∀ v ∈ r.2, ∀ e ∈ v.found, e.method = index := by
  obtain ⟨after, visits, hdiscover, -, -, -, hrec⟩ := exists_discoverBelow s index tree
    tree.nests_root (Nat.le_refl _) (Nat.le_succ _)
  have heq := h.symm.trans hdiscover
  rw [Except.ok.injEq] at heq
  subst heq
  exact fun v hv => (hrec v hv).2.2

theorem forMethod_visits {visits : List Visit}
    (h : ∀ v ∈ visits, ∀ e ∈ v.found, e.method = index) :
    (Registry.empty.add visits).forMethod index =
      (visits.flatMap Visit.found).map Registered.chain := by
  have hall : (visits.flatMap Visit.found).filter (fun e => e.method == index) =
      visits.flatMap Visit.found := by
    refine List.filter_eq_self.2 fun e he => ?_
    obtain ⟨v, hv, he⟩ := List.mem_flatMap.1 he
    simpa using h v hv e he
  simp only [Registry.forMethod, Registry.add, Registry.empty, List.nil_append, hall]

/-- **Discovery succeeds on every tree-shaped body.** It fills in branches and does nothing else to
the body, and it finds the chains of all blocks of the body that it leaves. -/
theorem exists_discover_of_treeShaped (s : Scanner) (index : ℕ) (m : Method)
    (tree : m.body.TreeShaped) : ∃ after visits,
      m.discover s index = .ok ({ m with body := after }, visits) ∧ m.body.Filled after ∧
      after.TreeShaped ∧ s.Discovers after ((Registry.empty.add visits).forMethod index) := by
  obtain ⟨after, visits, hdiscover, hf, hta, hbelow, hrec⟩ := exists_discoverBelow s index
    tree tree.nests_root (Nat.le_refl _) (Nat.le_succ _)
  refine ⟨after, visits, hdiscover, hf, hta, visits.map Visit.block,
    visits.map fun v => v.found.map Registered.chain, ?_, ?_, ?_, ?_⟩
  · obtain ⟨ids, hids⟩ := hta.nests_root.exists_below
    have h₁ := Body.below_mono hids (Nat.le_max_left _ (m.body.maxDepth + 1))
    have h₂ := Body.below_mono hbelow (Nat.le_max_right after.maxDepth _)
    rw [h₁, Except.ok.injEq] at h₂
    rw [Body.reachable, hids, h₂]
  · rw [List.forall₂_map_left_iff, List.forall₂_map_right_iff, List.forall₂_same]
    exact fun v hv => (hrec v hv).2.1
  · rw [forMethod_visits fun v hv => (hrec v hv).2.2, List.map_flatMap]
    rfl
  · intro id hid
    obtain ⟨v, hv, rfl⟩ := List.mem_map.1 hid
    exact (hrec v hv).1

end Method

end BranchExclusion
