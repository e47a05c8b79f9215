import BranchExclusion.Proofs.Chain.Weave
import BranchExclusion.Proofs.Chain.Placement

/-!
# What instrumentation does to a body

* `FlagStyle.declarations`, `FlagStyle.raises`, `FlagStyle.exclusions`: the statements that chains
  give to a block;
* `Body.Woven`: a body with statements woven into its blocks;
* `Body.exists_placed`: the loops over homes, chains, members and pairs come to the end, and what
  they leave is the body with these statements woven in;
* `Method.exists_woven`: discovery and instrumentation of a tree-shaped method, one after the other.
-/

namespace BranchExclusion

/-- The totals are running sums, and none but the first may be out of bounds. -/
theorem Outcome.totalsFrom_eq_some {total : Outcome} {outcomes totals : List Outcome} :
    total.totalsFrom outcomes = some totals ↔
      totals = outcomes.scanl Outcome.merge total ∧ ∀ t ∈ totals.tail, t.fits = true := by
  induction outcomes generalizing total totals with
  | nil =>
    rw [totalsFrom, List.scanl_nil, Option.some.injEq]
    constructor
    · rintro rfl
      exact ⟨rfl, by simp⟩
    · exact fun h => h.1.symm
  | cons o rest ih =>
    have hnext : rest.scanl merge (total.merge o) =
        total.merge o :: (rest.scanl merge (total.merge o)).tail :=
      List.eq_cons_of_mem_head? List.head?_scanl
    rw [totalsFrom, List.scanl_cons]
    by_cases hfits : (total.merge o).fits = true
    · rw [if_pos hfits, Option.map_eq_some_iff]
      constructor
      · rintro ⟨later, hlater, rfl⟩
        obtain ⟨rfl, hall⟩ := ih.1 hlater
        refine ⟨rfl, fun t ht => ?_⟩
        rw [List.tail_cons, hnext] at ht
        rcases List.mem_cons.1 ht with rfl | ht
        · exact hfits
        · exact hall t ht
      · rintro ⟨rfl, hall⟩
        exact ⟨_, ih.2 ⟨rfl, fun t ht => hall t (List.mem_of_mem_tail ht)⟩, rfl⟩
    · rw [if_neg hfits]
      refine ⟨fun h => (by cases h), ?_⟩
      rintro ⟨rfl, hall⟩
      rw [List.tail_cons, hnext] at hall
      exact absurd (hall _ List.mem_cons_self) hfits

namespace FlagStyle

variable (style : FlagStyle)

/-- The declarations that go to the front of the home `id`. -/
def declarations (chains : List Chain) (id : BlockId) : List Statement :=
  (chains.filter fun c => c.home == id).flatMap fun c => c.members.map style.declaration

/-- The assignments that go to the front of the branch `id`. -/
def raises (members : List Member) (id : BlockId) : List Statement :=
  (members.filter fun m => m.thenBranch == id).map style.raised

/-- The assertions that go to the end of the home `id`. -/
def exclusions (chains : List Chain) (id : BlockId) : List Statement :=
  (chains.filter fun c => c.home == id).flatMap fun c =>
    c.pairs.map fun p => style.exclusion p.1 p.2

variable {style} {chains : List Chain} {members : List Member} {id : BlockId}

theorem declarations_eq_nil (h : ∀ c ∈ chains, c.home ≠ id) :
    style.declarations chains id = [] := by
  have hnone : chains.filter (fun c => c.home == id) = [] := by simpa using h
  rw [declarations, hnone, List.flatMap_nil]

theorem raises_eq_nil (h : ∀ m ∈ members, m.thenBranch ≠ id) : style.raises members id = [] := by
  have hnone : members.filter (fun m => m.thenBranch == id) = [] := by simpa using h
  rw [raises, hnone, List.map_nil]

/-- A block that is no more than one member's branch gets no more than one assignment. -/
theorem length_raises_le (h : (members.map Member.thenBranch).Nodup) :
    (style.raises members id).length ≤ 1 := by
  rw [raises, List.length_map, ← List.countP_eq_length_filter]
  have hcount := List.nodup_iff_count_le_one.1 h id
  rw [List.count, List.countP_map] at hcount
  exact hcount

/-- The branch of a member gets the assignment of this member. -/
theorem raises_eq_singleton {m : Member} (h : (members.map Member.thenBranch).Nodup)
    (hm : m ∈ members) : style.raises members m.thenBranch = [style.raised m] := by
  have hmem : style.raised m ∈ style.raises members m.thenBranch :=
    List.mem_map_of_mem (List.mem_filter.2 ⟨hm, by simp⟩)
  have hle : (style.raises members m.thenBranch).length ≤ 1 := length_raises_le h
  generalize style.raises members m.thenBranch = l at hmem hle
  match l, hmem, hle with
  | [t], hmem, _ => rw [List.mem_singleton.1 hmem]

theorem exclusions_eq_nil (h : ∀ c ∈ chains, c.home ≠ id) : style.exclusions chains id = [] := by
  have hnone : chains.filter (fun c => c.home == id) = [] := by simpa using h
  rw [exclusions, hnone, List.flatMap_nil]

/-- Every assertion stands for itself: none is a comment or an exit. -/
theorem of_mem_exclusions {u : Statement} (h : u ∈ style.exclusions chains id) :
    u.isComment = false ∧ u.isExit = false := by
  obtain ⟨c, -, hu⟩ := List.mem_flatMap.1 h
  obtain ⟨p, -, rfl⟩ := List.mem_map.1 hu
  exact ⟨rfl, rfl⟩

end FlagStyle

namespace Body

/-- `placed` is `body` with statements woven into each block, which `d`, `a` and `e` name for it. -/
structure Woven (body placed : Body) (d a e : BlockId → List Statement) : Prop where
  size_eq : placed.size = body.size
  block_eq : ∀ {id b}, body.block id = .ok b →
    placed.block id = .ok (b.weave (d id) (a id) (e id))

namespace Woven

variable {style : FlagStyle} {body cur : Body} {d a e d' a' e' : BlockId → List Statement}
  {id : BlockId} {b : Block}

theorem refl (body : Body) : body.Woven body (fun _ => []) (fun _ => []) fun _ => [] :=
  ⟨rfl, fun hb => by rw [hb, Block.weave_nil]⟩

theorem exists_weave (h : body.Woven cur d a e) (hb : cur.block id = .ok b) :
    ∃ b₀, body.block id = .ok b₀ ∧ b = b₀.weave (d id) (a id) (e id) := by
  have hid : id < body.size := h.size_eq ▸ lt_size_of_block_eq_ok hb
  obtain ⟨b₀, hb₀⟩ := exists_block hid
  exact ⟨b₀, hb₀, block_unique hb (h.block_eq hb₀)⟩

/-- A statement was there before or was woven in. -/
theorem exists_mem {t : Statement} (h : body.Woven cur d a e) (hb : cur.block id = .ok b)
    (ht : t ∈ b.statements) : ∃ b₀, body.block id = .ok b₀ ∧
      (t ∈ b₀.statements ∨ t ∈ d id ∨ t ∈ a id ∨ t ∈ e id) := by
  obtain ⟨b₀, hb₀, rfl⟩ := h.exists_weave hb
  exact ⟨b₀, hb₀, Block.mem_weave.1 ht⟩

/-- Blocks keep the blocks they own. -/
theorem isChild {p x : BlockId} (h : body.Woven cur d a e) (hc : body.IsChild p x) :
    cur.IsChild p x := by
  obtain ⟨b, hb, hx⟩ := hc
  obtain ⟨t, ht, hx⟩ := List.mem_flatMap.1 hx
  exact ⟨_, h.block_eq hb, List.mem_flatMap.2 ⟨t, Block.mem_weave.2 (.inl ht), hx⟩⟩

theorem reaches {p x : BlockId} (h : body.Woven cur d a e) (hr : body.Reaches p x) :
    cur.Reaches p x := by
  induction hr with
  | self => exact .self
  | child _ hc ih => exact .child ih (h.isChild hc)

/-- A change of one block that weaves more into it. -/
theorem modify (h : body.Woven cur d a e) (hb : body.block id = .ok b) {f : Block → Block}
    (hf : f (b.weave (d id) (a id) (e id)) = b.weave (d' id) (a' id) (e' id))
    (hother : ∀ x, x ≠ id → d' x = d x ∧ a' x = a x ∧ e' x = e x) :
    ∃ next, cur.modify id f = .ok next ∧ body.Woven next d' a' e' := by
  have hcur := h.block_eq hb
  refine ⟨cur.set id (f (b.weave (d id) (a id) (e id))), modify_eq_ok.2 ⟨_, hcur, rfl⟩, ?_, ?_⟩
  · rw [size_set, h.size_eq]
  · intro x c hc
    by_cases hx : x = id
    · subst hx
      rw [block_set_self _ (lt_size_of_block_eq_ok hcur), hf, block_unique hc hb]
    · obtain ⟨hd, ha, he⟩ := hother x hx
      rw [block_set_of_ne _ _ (Ne.symm hx), h.block_eq hc, hd, ha, he]

/-- One flag raised in a branch that has nothing yet. -/
theorem raiseFlag {members : List Member} {m : Member}
    (h : body.Woven cur d (style.raises members) e) (hb : body.block m.thenBranch = .ok b)
    (hm : ∀ x ∈ members, x.thenBranch ≠ m.thenBranch) (hd : d m.thenBranch = [])
    (he : e m.thenBranch = []) :
    ∃ next, cur.raiseFlag style m = .ok next ∧
      body.Woven next d (style.raises (members ++ [m])) e := by
  have hold : style.raises members m.thenBranch = [] := FlagStyle.raises_eq_nil hm
  refine h.modify hb ?_ fun x hx => ⟨rfl, ?_, rfl⟩
  · have hnew : style.raises (members ++ [m]) m.thenBranch = [style.raised m] := by
      unfold FlagStyle.raises at hold ⊢
      rw [List.filter_append, List.map_append, hold]
      simp
    rw [hd, he, hold, hnew, Block.weave_nil, Block.pushFront_weave]
  · unfold FlagStyle.raises
    have hskip : [m].filter (fun y => y.thenBranch == x) = [] := by simpa using Ne.symm hx
    rw [List.filter_append, hskip, List.append_nil]

/-- The flags of a chain raised, one branch after the other. -/
theorem raiseFlags {members ms : List Member} (h : body.Woven cur d (style.raises members) e)
    (hnodup : ((members ++ ms).map Member.thenBranch).Nodup)
    (hms : ∀ m ∈ ms, (∃ b, body.block m.thenBranch = .ok b) ∧ d m.thenBranch = [] ∧
      e m.thenBranch = []) :
    ∃ next, ms.foldlM (Body.raiseFlag style) cur = .ok next ∧
      body.Woven next d (style.raises (members ++ ms)) e := by
  refine exists_foldlM (fun done next => body.Woven next d (style.raises (members ++ done)) e)
    (by simpa using h) fun done m rest next hsplit hnext => ?_
  obtain ⟨⟨b, hb⟩, hd, he⟩ := hms m (by simp [hsplit])
  have hm : ∀ x ∈ members ++ done, x.thenBranch ≠ m.thenBranch := by
    intro x hx heq
    rw [hsplit, ← List.append_assoc, List.map_append, List.nodup_append'] at hnodup
    refine hnodup.2.2 (List.mem_map_of_mem hx) ?_
    rw [List.map_cons, heq]
    exact List.mem_cons_self
  rw [← List.append_assoc]
  exact hnext.raiseFlag hb hm hd he

/-- One assertion placed in a home whose flags are not declared yet. -/
theorem assertPair (style : FlagStyle) (p : Member × Member) (h : body.Woven cur d a e)
    (hb : body.block id = .ok b) (hl : 2 ≤ b.conditionals.length) (hd : d id = [])
    (he : ∀ u ∈ e id, u.isComment = false ∧ u.isExit = false) :
    ∃ next, cur.assertPair style id p = .ok next ∧
      body.Woven next d a (Function.update e id (e id ++ [style.exclusion p.1 p.2])) := by
  refine h.modify hb ?_ fun x hx => ⟨rfl, rfl, Function.update_of_ne hx _ _⟩
  rw [hd, Function.update_self, Block.appendAssertion_weave hl _ _ he]

/-- The assertions of a chain placed, one pair after the other. -/
theorem assertPairs (style : FlagStyle) (ps : List (Member × Member)) (h : body.Woven cur d a e)
    (hb : body.block id = .ok b) (hl : 2 ≤ b.conditionals.length) (hd : d id = [])
    (he : ∀ u ∈ e id, u.isComment = false ∧ u.isExit = false) :
    ∃ next, ps.foldlM (Body.assertPair style id) cur = .ok next ∧ body.Woven next d a
      (Function.update e id (e id ++ ps.map fun p => style.exclusion p.1 p.2)) := by
  refine exists_foldlM (fun (done : List (Member × Member)) next => body.Woven next d a
      (Function.update e id (e id ++ done.map fun p => style.exclusion p.1 p.2))) ?_ ?_
  · rw [List.map_nil, List.append_nil, Function.update_eq_self]
    exact h
  · intro done p rest next _ hnext
    obtain ⟨s, hs, hw⟩ := hnext.assertPair style p hb hl hd (by
      intro u hu
      rw [Function.update_self] at hu
      rcases List.mem_append.1 hu with hu | hu
      · exact he u hu
      · obtain ⟨q, -, rfl⟩ := List.mem_map.1 hu
        exact ⟨rfl, rfl⟩)
    rw [Function.update_idem, Function.update_self, List.append_assoc] at hw
    refine ⟨s, hs, ?_⟩
    rw [List.map_append]
    exact hw

/-- One chain placed, when the chains before it in the list are and its home is not closed yet. -/
theorem placeChain {chains pre post : List Chain} {c : Chain} (tree : body.TreeShaped)
    (hp : body.Placement chains) (hsplit : chains = pre ++ c :: post)
    (h : body.Woven cur d (style.raises (pre.flatMap Chain.members)) (style.exclusions pre))
    (hd : ∀ x, d x ≠ [] → ∃ c' ∈ pre, c'.home = x) (hhome : d c.home = []) :
    ∃ next, cur.placeChain style c = .ok next ∧
      body.Woven next d (style.raises ((pre ++ [c]).flatMap Chain.members))
        (style.exclusions (pre ++ [c])) := by
  have hc : c ∈ chains := by simp [hsplit]
  -- no branch of the chain is the home of a chain before it
  have hbefore : ∀ m ∈ c.members, ∀ c' ∈ pre, c'.home ≠ m.thenBranch := by
    intro m hm c' hc' heq
    have hpair := hp.before
    rw [hsplit, List.pairwise_append] at hpair
    exact hpair.2.2 c' hc' c List.mem_cons_self m hm heq.symm
  have hnodup : ((pre.flatMap Chain.members ++ c.members).map Member.thenBranch).Nodup := by
    have hall := hp.nodup
    rw [hsplit, List.flatMap_append, List.flatMap_cons, ← List.append_assoc,
      List.map_append] at hall
    exact hall.of_append_left
  have hfree : ∀ m ∈ c.members, (∃ b, body.block m.thenBranch = .ok b) ∧ d m.thenBranch = [] ∧
      style.exclusions pre m.thenBranch = [] := by
    intro m hm
    obtain ⟨p, hchild⟩ := (hp.adopts c hc m hm).exists_owner
    refine ⟨exists_block (tree.lt_size hchild), ?_, FlagStyle.exclusions_eq_nil (hbefore m hm)⟩
    by_contra hne
    obtain ⟨c', hc', heq⟩ := hd _ hne
    exact hbefore m hm c' hc' heq
  obtain ⟨next, hnext, hw⟩ := h.raiseFlags hnodup hfree
  obtain ⟨b, hb, hl⟩ := hp.home c hc
  obtain ⟨last, hlast, hw'⟩ := hw.assertPairs style c.pairs hb hl hhome
    fun u => FlagStyle.of_mem_exclusions
  have hexcl : Function.update (style.exclusions pre) c.home (style.exclusions pre c.home ++
      c.pairs.map fun p => style.exclusion p.1 p.2) = style.exclusions (pre ++ [c]) := by
    funext x
    by_cases hx : x = c.home
    · subst hx
      rw [Function.update_self]
      simp [FlagStyle.exclusions]
    · have hskip : [c].filter (fun c => c.home == x) = [] := by simpa using Ne.symm hx
      rw [Function.update_of_ne hx, FlagStyle.exclusions, FlagStyle.exclusions, List.filter_append,
        hskip, List.append_nil]
  refine ⟨last, ?_, ?_⟩
  · rw [Body.placeChain, hnext, ok_bind, hlast]
  · rw [List.flatMap_append, List.flatMap_singleton, ← hexcl]
    exact hw'

/-- Chains of one home placed, one after the other. -/
theorem placeChains {chains pre here post : List Chain} {home : BlockId} (tree : body.TreeShaped)
    (hp : body.Placement chains) (hsplit : chains = pre ++ here ++ post)
    (hhere : ∀ c ∈ here, c.home = home)
    (h : body.Woven cur d (style.raises (pre.flatMap Chain.members)) (style.exclusions pre))
    (hd : ∀ x, d x ≠ [] → ∃ c' ∈ pre, c'.home = x) (hhome : d home = []) :
    ∃ next, here.foldlM (Body.placeChain style) cur = .ok next ∧
      body.Woven next d (style.raises ((pre ++ here).flatMap Chain.members))
        (style.exclusions (pre ++ here)) := by
  refine exists_foldlM (fun done next => body.Woven next d
    (style.raises ((pre ++ done).flatMap Chain.members)) (style.exclusions (pre ++ done)))
    (by simpa using h) fun done c rest s hl hs => ?_
  have hsplit' : chains = (pre ++ done) ++ c :: (rest ++ post) := by simp [hsplit, hl]
  have hc : c.home = home := hhere c (by simp [hl])
  rw [← List.append_assoc]
  refine hs.placeChain tree hp hsplit' (fun x hx => ?_) (hc ▸ hhome)
  obtain ⟨c', hc', heq⟩ := hd x hx
  exact ⟨c', List.mem_append_left _ hc', heq⟩

/-- All chains of one home placed and their flags declared, when the homes before it are done. -/
theorem placeHome {chains : List Chain} {done rest : List BlockId} {home : BlockId}
    (tree : body.TreeShaped) (hp : body.Placement chains)
    (hsplit : homes chains = done ++ home :: rest)
    (h : body.Woven cur (fun x => if x ∈ done then style.declarations chains x else [])
      (style.raises ((done.flatMap fun x =>
        chains.filter fun c => c.home == x).flatMap Chain.members))
      (style.exclusions (done.flatMap fun x => chains.filter fun c => c.home == x))) :
    ∃ next, cur.placeHome style chains home = .ok next ∧
      body.Woven next (fun x => if x ∈ done ++ [home] then style.declarations chains x else [])
      (style.raises (((done ++ [home]).flatMap fun x =>
        chains.filter fun c => c.home == x).flatMap Chain.members))
      (style.exclusions ((done ++ [home]).flatMap fun x =>
        chains.filter fun c => c.home == x)) := by
  have hgrouped := hp.grouped
  have hnodup := nodup_homes chains
  rw [hsplit] at hgrouped hnodup
  rw [List.nodup_append'] at hnodup
  have hnew : home ∉ done := fun hmem => hnodup.2.2 hmem List.mem_cons_self
  have hmem : ∀ x ∈ done ++ home :: rest, ∃ c ∈ chains, c.home = x := by
    intro x hx
    rw [← hsplit, homes, List.mem_eraseDups] at hx
    obtain ⟨c, hc, rfl⟩ := List.mem_map.1 hx
    exact ⟨c, hc, rfl⟩
  rw [List.flatMap_append, List.flatMap_cons] at hgrouped
  rw [List.flatMap_append, List.flatMap_singleton]
  generalize hpre : (done.flatMap fun x => chains.filter fun c => c.home == x) = pre at *
  rw [← List.append_assoc] at hgrouped
  have hdone : ∀ x, (if x ∈ done then style.declarations chains x else []) ≠ [] →
      ∃ c ∈ pre, c.home = x := by
    intro x hx
    have hx' : x ∈ done := by
      by_contra hne
      exact hx (if_neg hne)
    obtain ⟨c, hc, heq⟩ := hmem x (List.mem_append_left _ hx')
    rw [← hpre]
    exact ⟨c, List.mem_flatMap.2 ⟨x, hx', by simp [hc, heq]⟩, heq⟩
  obtain ⟨next, hnext, hw⟩ := h.placeChains tree hp hgrouped.symm (by simp) hdone (if_neg hnew)
  obtain ⟨c, hc, hhome⟩ := hmem home (by simp)
  obtain ⟨b, hb, hl⟩ := hp.home c hc
  rw [hhome] at hb
  rw [Body.placeHome, hnext, ok_bind]
  refine hw.modify hb ?_ fun x hx => ⟨by simp [hx], rfl, rfl⟩
  rw [if_neg hnew, if_pos (by simp)]
  exact Block.spliceFront_weave hl _ _ _

end Woven

/-- **Instrumentation only weaves statements into blocks.** The loops come to the end, and each
block gets the declarations and assertions of the chains whose home it is, and the assignment of the
member whose branch it is. -/
theorem exists_placed (style : FlagStyle) {body : Body} {chains : List Chain}
    (tree : body.TreeShaped) (hp : body.Placement chains) :
    ∃ placed, (homes chains).foldlM (placeHome style chains) body = .ok placed ∧
      body.Woven placed (style.declarations chains) (style.raises (chains.flatMap Chain.members))
        (style.exclusions chains) := by
  obtain ⟨placed, hplaced, hw⟩ := exists_foldlM (f := placeHome style chains) (l := homes chains)
    (s := body)
    (fun done next => body.Woven next
      (fun x => if x ∈ done then style.declarations chains x else [])
      (style.raises ((done.flatMap fun x =>
        chains.filter fun c => c.home == x).flatMap Chain.members))
      (style.exclusions (done.flatMap fun x => chains.filter fun c => c.home == x)))
    (Woven.refl body) fun done home rest next hsplit hnext => hnext.placeHome tree hp hsplit
  refine ⟨placed, hplaced, ?_⟩
  rw [hp.grouped] at hw
  have hdecl : (fun x => if x ∈ homes chains then style.declarations chains x else []) =
      style.declarations chains := by
    funext x
    split
    · rfl
    · next hx =>
      refine (FlagStyle.declarations_eq_nil fun c hc heq => hx ?_).symm
      rw [homes, List.mem_eraseDups]
      exact List.mem_map.2 ⟨c, hc, heq⟩
  rwa [hdecl] at hw

theorem of_instrument_eq_ok {style : FlagStyle} {body placed : Body} {chains : List Chain}
    {declaration : String} {outcome : Outcome}
    (h : body.instrument style chains declaration = .ok (placed, outcome)) :
    (homes chains).foldlM (placeHome style chains) body = .ok placed ∧
      outcome = Outcome.ofChains chains := by
  unfold instrument at h
  obtain ⟨-, -, h⟩ := bind_eq_ok.1 h
  obtain ⟨next, hnext, h⟩ := bind_eq_ok.1 h
  cases hfold : (homes chains).foldlM (placeHome style chains) body with
  | error e =>
    rw [hfold] at hnext
    cases hnext
  | ok last =>
    rw [hfold] at hnext
    cases hnext
    cases h
    exact ⟨rfl, rfl⟩

end Body

/-- **Discovery and instrumentation of a tree-shaped method.** Discovery fills in branches, what it
finds can be placed, and instrumentation weaves it into the body that discovery left. -/
theorem Method.exists_woven (s : Scanner) (index : ℕ) (m : Method) (tree : m.body.TreeShaped) :
    ∃ after visits, m.discover s index = .ok ({ m with body := after }, visits) ∧
      m.body.Filled after ∧ after.TreeShaped ∧
      after.Placement ((Registry.empty.add visits).forMethod index) ∧
      ∀ {style declaration placed outcome},
        after.instrument style ((Registry.empty.add visits).forMethod index) declaration =
          .ok (placed, outcome) →
        outcome = Outcome.ofChains ((Registry.empty.add visits).forMethod index) ∧
        after.Woven placed (style.declarations ((Registry.empty.add visits).forMethod index))
          (style.raises (((Registry.empty.add visits).forMethod index).flatMap Chain.members))
          (style.exclusions ((Registry.empty.add visits).forMethod index)) := by
  obtain ⟨after, visits, hdiscover, hf, hta, hd⟩ := m.exists_discover_of_treeShaped s index tree
  have hp := hd.placement hta
  refine ⟨after, visits, hdiscover, hf, hta, hp, fun {style _ placed _} h => ?_⟩
  obtain ⟨hplaced, houtcome⟩ := Body.of_instrument_eq_ok h
  obtain ⟨next, hnext, hw⟩ := Body.exists_placed style hta hp
  rw [hplaced, Except.ok.injEq] at hnext
  exact ⟨houtcome, hnext ▸ hw⟩

end BranchExclusion
