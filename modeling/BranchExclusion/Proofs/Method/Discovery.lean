import BranchExclusion.Proofs.Chain.Repetition

/-!
# Discovery is a scan of every block

While discovery goes through a method, every scan may fill in branches of blocks that are visited
only later. All the same it finds what a scan of each block of the final body finds.

* `Body.Lists`: the blocks of a body, each once and in source order;
* `Method.discoverBelow_of_confirms`: where every visit is confirmed, discovery makes these visits;
* `Method.discover_scans_each_block`: discovery as one scan of each block of the body that it
  leaves, and a second discovery.
-/

namespace BranchExclusion

namespace Body

variable {body : Body} {id p : BlockId}

/-- `ids` are the blocks that the root leads to, each once. An owner comes before all that lies
below it, and the blocks of one owner come in source order. -/
structure Lists (body : Body) (ids : List BlockId) : Prop where
  mem_iff : ∀ id, id ∈ ids ↔ body.Reaches root id
  nodup : ids.Nodup
  owner_first : ids.Pairwise fun x y => ¬ body.Reaches y x
  siblings : ∀ p ∈ ids, ∀ b, body.block p = .ok b → b.childBlocks.Sublist ids

/-- Lists that start with the elements of a list hold it in this order. -/
theorem sublist_flatten {ids : List BlockId} {lists : List (List BlockId)}
    (h : List.Forall₂ (fun id l => ∃ rest, l = id :: rest) ids lists) :
    ids.Sublist lists.flatten := by
  induction h with
  | nil => exact .refl _
  | @cons id l ids lists hl _ ih =>
    obtain ⟨rest, rfl⟩ := hl
    rw [List.flatten_cons, List.cons_append]
    exact (ih.trans (List.sublist_append_right rest _)).cons_cons id

theorem childBlocks_sublist_below {n : ℕ} {ids : List BlockId} (h : body.below n id = .ok ids)
    (hp : p ∈ ids) {b : Block} (hb : body.block p = .ok b) : b.childBlocks.Sublist ids := by
  induction n generalizing id ids with
  | zero => cases h
  | succ n ih =>
    obtain ⟨b', lists, hb', hl, rfl⟩ := below_succ.1 h
    apply List.Sublist.cons
    rcases List.mem_cons.1 hp with rfl | hp
    · obtain rfl := block_unique hb hb'
      refine sublist_flatten (hl.imp fun c l hc => ?_)
      cases n with
      | zero => cases hc
      | succ n =>
        obtain ⟨-, lists, -, -, rfl⟩ := below_succ.1 hc
        exact ⟨lists.flatten, rfl⟩
    · obtain ⟨l, hm, hpl⟩ := List.mem_flatten.1 hp
      obtain ⟨c, -, hcl⟩ := forall₂_exists_left hl hm
      exact (ih hcl hpl).trans (List.sublist_flatten_of_mem hm)

/-- The blocks of a tree-shaped body as they are listed. -/
theorem TreeShaped.lists (tree : body.TreeShaped) {ids : List BlockId}
    (h : body.reachable = .ok ids) : body.Lists ids where
  mem_iff _ := mem_below h
  nodup := tree.nodup_below .self h
  owner_first := tree.pairwise_below .self h
  siblings _ hp _ hb := childBlocks_sublist_below h hp hb

end Body

namespace Method

variable {s : Scanner} {index : ℕ} {m : Method} {id : BlockId} {visits : List Visit}

/-- Where every visit of a list would be made in the same way, discovery makes these visits and
leaves the method as it is. -/
theorem discoverBelow_of_confirms {fuel : ℕ}
    (hbelow : m.body.below fuel id = .ok (visits.map Visit.block))
    (h : ∀ v ∈ visits, m.Confirms s index v) :
    m.discoverBelow s index fuel id = .ok (m, visits) := by
  induction fuel generalizing id visits with
  | zero => cases hbelow
  | succ fuel ih =>
    obtain ⟨b, lists, hb, hl, heq⟩ := Body.below_succ.1 hbelow
    obtain ⟨here, rest, rfl, rfl, hrest⟩ := List.map_eq_cons_iff.1 heq
    -- each child takes its own part of the visits that are left
    have children : ∀ cs lists, List.Forall₂ (fun c l => m.body.below fuel c = .ok l) cs lists →
        ∀ done rest, rest.map Visit.block = lists.flatten → (∀ v ∈ rest, m.Confirms s index v) →
        cs.foldlM (visitChild s index fuel) (m, done) = .ok (m, done ++ rest) := by
      intro cs lists hl
      induction hl with
      | nil =>
        intro done rest hrest _
        rw [List.map_eq_nil_iff.1 hrest, List.append_nil]
        rfl
      | @cons c l cs lists hc _ ihl =>
        intro done rest hrest hall
        rw [List.flatten_cons, List.map_eq_append_iff] at hrest
        obtain ⟨now, later, rfl, rfl, hlater⟩ := hrest
        have hnow : m.discoverBelow s index fuel c = .ok (m, now) :=
          ih hc fun v hv => hall v (List.mem_append_left _ hv)
        have hstep : visitChild s index fuel (m, done) c = .ok (m, done ++ now) := by
          rw [visitChild, hnow]
          rfl
        rw [List.foldlM_cons, hstep, ok_bind, ← List.append_assoc]
        exact ihl _ later hlater fun v hv => hall v (List.mem_append_right _ hv)
    have hvisit : m.visit s index here.block = .ok (m, here) := h here List.mem_cons_self
    rw [discoverBelow_succ, hvisit, ok_bind, hb, ok_bind,
      children _ lists hl [] rest hrest fun v hv => h v (List.mem_cons_of_mem here hv)]
    rfl

/-- **Discovery is a scan of every block.** It comes to an end on every tree-shaped body. The blocks
that it visits are those of the body that it leaves, in source order and owners first. What it adds
to a registry are the chains that scans of these blocks find in the final body, with their reports,
and a second discovery adds the same and changes nothing. -/
theorem discover_scans_each_block (s : Scanner) (index : ℕ) (m : Method)
    (tree : m.body.TreeShaped) : ∃ after visits,
      m.discover s index = .ok ({ m with body := after }, visits) ∧
      after.reachable = .ok (visits.map Visit.block) ∧ after.Lists (visits.map Visit.block) ∧
      (∃ found new, List.Forall₂ (fun id chains => s.scan after id = .ok (after, chains))
          (visits.map Visit.block) found ∧
        new.map Registered.chain = found.flatten ∧
        (∀ e ∈ new, e.method = index ∧
          ({ m with body := after } : Method).register index e.chain = .ok e) ∧
        ∀ registry : Registry, (registry.add visits).entries = registry.entries ++ new ∧
          (registry.add visits).entries.length - registry.entries.length = found.flatten.length) ∧
      ({ m with body := after } : Method).discover s index =
        .ok ({ m with body := after }, visits) := by
  obtain ⟨after, visits, hdiscover, -, hta, hbelow, hrec⟩ := exists_discoverBelow s index
    tree tree.nests_root (Nat.le_refl _) (Nat.le_succ _)
  have hconfirms : ∀ v ∈ visits, Confirms s index { m with body := after } v := fun v hv =>
    (scans_of_discoverBelow tree .self hdiscover).confirms tree hv
  obtain ⟨ids, hids⟩ := hta.nests_root.exists_below
  have hreachable : after.reachable = .ok (visits.map Visit.block) := by
    have h₁ := Body.below_mono hids (Nat.le_max_left _ (m.body.maxDepth + 1))
    have h₂ := Body.below_mono hbelow (Nat.le_max_right after.maxDepth _)
    rw [h₁, Except.ok.injEq] at h₂
    rw [Body.reachable, hids, h₂]
  have hlists := hta.lists hreachable
  refine ⟨after, visits, hdiscover, hreachable, hlists, ?_, ?_⟩
  · refine ⟨visits.map fun v => v.found.map Registered.chain, visits.flatMap Visit.found, ?_, ?_,
      ?_, ?_⟩
    · rw [List.forall₂_map_left_iff, List.forall₂_map_right_iff, List.forall₂_same]
      intro v hv
      have hn := hta.nests_root.of_reaches ((hlists.mem_iff v.block).1 (List.mem_map_of_mem hv))
      exact Scanner.scan_of_normal hta hn (Nat.le_refl _) (hrec v hv).1 (hrec v hv).2.1
    · rw [List.map_flatMap]
      rfl
    · intro e he
      obtain ⟨v, hv, he⟩ := List.mem_flatMap.1 he
      obtain ⟨body, chains, found, b, -, hfound, -, heq, hvisit⟩ :=
        visit_eq_ok.1 (hconfirms v hv)
      obtain rfl : after = body := congrArg Method.body heq
      rw [hvisit] at he
      obtain ⟨c, -, hc⟩ := forall₂_exists_left (mapM_eq_ok.1 hfound) he
      refine ⟨(hrec v hv).2.2 e (hvisit ▸ he), ?_⟩
      -- an entry holds the chain that it was made from
      obtain ⟨report, hreport, h⟩ := bind_eq_ok.1 hc
      cases h
      exact hc
    · intro registry
      refine ⟨rfl, ?_⟩
      simp [Registry.add, List.length_flatMap, List.length_flatten, Function.comp_def]
  · exact discoverBelow_of_confirms (Body.below_mono hreachable (Nat.le_succ _)) hconfirms

/-! ### A ladder -/

/-- A conditional with an `else if`, then another conditional. The branches of the ladder are lone
semicolons. -/
def ladder : Method where
  owner := "A"
  name := "f"
  span := .zero
  bodyRange := .zero
  indent := ""
  body := ⟨#[
    ⟨[.conditional ⟨3, .source "a", none, some 1, .zero⟩,
      .conditional ⟨5, .source "c", some 2, none, .zero⟩], .zero, true, false, false⟩,
    .unbraced (.conditional ⟨4, .source "b", none, none, .zero⟩) .zero false,
    ⟨[.other ⟨"x();", .zero, .zero⟩], .zero, true, false, false⟩]⟩

/-- Its body with the branches filled in, that of the ladder's last rung behind the other. -/
def ladderBody : Body := ⟨#[
  ⟨[.conditional ⟨3, .source "a", some 3, some 1, .zero⟩,
    .conditional ⟨5, .source "c", some 2, none, .zero⟩], .zero, true, false, false⟩,
  .unbraced (.conditional ⟨4, .source "b", some 4, none, .zero⟩) .zero false,
  ⟨[.other ⟨"x();", .zero, .zero⟩], .zero, true, false, false⟩, .synthetic, .synthetic]⟩

/-- The chain of the ladder's last rung and the conditional behind the ladder. -/
def ladderChain : Chain := ⟨Body.root, [⟨4, 4⟩, ⟨5, 2⟩], by decide⟩

/-- The visits that discovery makes. -/
def ladderVisits : List Visit :=
  [⟨0, 2, [⟨7, ladderChain, ⟨"A", "f", 4, [4, 5], false⟩⟩]⟩, ⟨3, 0, []⟩, ⟨1, 1, []⟩, ⟨4, 0, []⟩,
    ⟨2, 1, []⟩]

theorem treeShaped_ladder : ladder.body.TreeShaped := ⟨by decide, by decide, by decide, by decide⟩

theorem discover_ladder :
    ladder.discover .standard 7 = .ok ({ ladder with body := ladderBody }, ladderVisits) := by
  decide +kernel

/-- The blocks of the small method as they are visited, the one chain that is found in them, and a
second discovery. -/
theorem discover_scans_each_block_ladder : ladder.body.TreeShaped ∧
    ladder.discover .standard 7 = .ok ({ ladder with body := ladderBody }, ladderVisits) ∧
    ladderBody.Lists [0, 3, 1, 4, 2] ∧
    (∃ found, List.Forall₂ (fun id chains => Scanner.standard.scan ladderBody id =
      .ok (ladderBody, chains)) [0, 3, 1, 4, 2] found ∧ found.flatten = [ladderChain]) ∧
    ({ ladder with body := ladderBody } : Method).discover .standard 7 =
      .ok ({ ladder with body := ladderBody }, ladderVisits) := by
  obtain ⟨after, visits, hdiscover, -, hlists, ⟨found, new, hfound, hnew, -, hadd⟩, hagain⟩ :=
    discover_scans_each_block .standard 7 ladder treeShaped_ladder
  rw [discover_ladder, Except.ok.injEq, Prod.mk.injEq] at hdiscover
  obtain ⟨hbody, rfl⟩ := hdiscover
  obtain rfl : ladderBody = after := congrArg Method.body hbody
  have hempty : (Registry.empty.add ladderVisits).entries = new := (hadd .empty).1
  have hchain : new.map Registered.chain = [ladderChain] := by
    rw [← hempty]
    rfl
  exact ⟨treeShaped_ladder, discover_ladder, hlists, ⟨found, hfound, hnew ▸ hchain⟩, hagain⟩

end Method

end BranchExclusion
