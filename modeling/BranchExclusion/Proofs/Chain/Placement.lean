import BranchExclusion.Chain.Instrument
import BranchExclusion.Proofs.Chain.Discovery

/-!
# Where the discovered chains lie

* `Body.Placement`: no branch belongs to two members, every home has two conditionals of its own,
  and no branch is the home of the same or of an earlier chain;
* `Scanner.Discovers.placement`: the chains that discovery finds lie so.
-/

namespace BranchExclusion

/-- The chains can be placed in the body one after the other without meeting each other. -/
structure Body.Placement (body : Body) (chains : List Chain) : Prop where
  reaches : ∀ c ∈ chains, body.Reaches Body.root c.home
  home : ∀ c ∈ chains, ∃ b, body.block c.home = .ok b ∧ 2 ≤ b.conditionals.length
  adopts : ∀ c ∈ chains, ∀ m ∈ c.members, body.Adopts c.home m
  nodup : ((chains.flatMap Chain.members).map Member.thenBranch).Nodup
  before : chains.Pairwise fun c d => ∀ m ∈ d.members, m.thenBranch ≠ c.home
  own : ∀ c ∈ chains, ∀ m ∈ c.members, m.thenBranch ≠ c.home
  grouped : (homes chains).flatMap (fun h => chains.filter fun c => c.home == h) = chains

theorem Body.not_isRung {body : Body} {id p : BlockId} {b : Block} (hb : body.block id = .ok b)
    (hl : 2 ≤ b.conditionals.length) : ¬ body.IsRung p id := by
  rintro ⟨-, -, b', d, -, -, -, hb', hd⟩
  obtain rfl := block_unique hb hb'
  rw [Block.conditionals_of_singleConditional? hd] at hl
  simp at hl

theorem nodup_homes (chains : List Chain) : (homes chains).Nodup := by
  -- `eraseDups` goes on with a filtered list, so the induction is on a bound of the length
  have go : ∀ n (l : List BlockId), l.length ≤ n → l.eraseDups.Nodup := by
    intro n
    induction n with
    | zero =>
      intro l hl
      rw [List.length_eq_zero_iff.1 (Nat.le_zero.1 hl)]
      exact List.nodup_nil
    | succ n ih =>
      intro l hl
      cases l with
      | nil => exact List.nodup_nil
      | cons x l =>
        rw [List.eraseDups_cons, List.nodup_cons]
        refine ⟨by simp [List.mem_eraseDups], ih _ ?_⟩
        exact (List.length_filter_le _ l).trans (Nat.succ_le_succ_iff.1 hl)
  exact go _ _ (Nat.le_refl _)

theorem homes_append {id : BlockId} {l rest : List Chain} (hl : l ≠ [])
    (hhere : ∀ c ∈ l, c.home = id) (hrest : ∀ c ∈ rest, c.home ≠ id) :
    homes (l ++ rest) = id :: homes rest := by
  cases l with
  | nil => exact absurd rfl hl
  | cons c l =>
    have hskip : (l.map Chain.home).filter (fun h => !h == id) = [] := by
      simpa using fun d hd => hhere d (List.mem_cons_of_mem c hd)
    have hkeep : (rest.map Chain.home).filter (fun h => !h == id) = rest.map Chain.home := by
      simpa using hrest
    rw [homes, List.cons_append, List.map_cons, List.eraseDups_cons, hhere c List.mem_cons_self,
      List.map_append, List.filter_append, hskip, hkeep]
    rfl

/-- Chains that come home by home are grouped by their homes already. -/
theorem grouped_flatten {ids : List BlockId} {lists : List (List Chain)} (hids : ids.Nodup)
    (h : List.Forall₂ (fun id l => ∀ c ∈ l, c.home = id) ids lists) :
    (homes lists.flatten).flatMap (fun h => lists.flatten.filter fun c => c.home == h) =
      lists.flatten := by
  induction h with
  | nil => rfl
  | @cons id l ids lists hl hrest ih =>
    rw [List.nodup_cons] at hids
    have hother : ∀ c ∈ lists.flatten, c.home ≠ id := by
      intro c hc heq
      obtain ⟨l', hl', hc⟩ := List.mem_flatten.1 hc
      obtain ⟨id', hid', hhome⟩ := forall₂_exists_left hrest hl'
      exact hids.1 (heq ▸ hhome c hc ▸ hid')
    by_cases hempty : l = []
    · simpa [hempty] using ih hids.2
    rw [List.flatten_cons, homes_append hempty hl hother, List.flatMap_cons]
    have hall : l.filter (fun c => c.home == id) = l := by simpa using hl
    have hnone : lists.flatten.filter (fun c => c.home == id) = [] := by
      rw [List.filter_eq_nil_iff]
      simpa using hother
    rw [List.filter_append, hall, hnone, List.append_nil]
    congr 1
    conv_rhs => rw [← ih hids.2]
    refine List.flatMap_congr fun h hh => ?_
    have hne : h ≠ id := by
      rw [homes, List.mem_eraseDups] at hh
      obtain ⟨c, hc, rfl⟩ := List.mem_map.1 hh
      exact hother c hc
    have hskip : l.filter (fun c => c.home == h) = [] := by
      rw [List.filter_eq_nil_iff]
      intro c hc
      simpa [hl c hc] using Ne.symm hne
    rw [List.filter_append, hskip, List.nil_append]

namespace Scanner

variable {s : Scanner} {body : Body} {chains : List Chain} {id : BlockId}

theorem Finds.home_eq (h : s.Finds body id chains) {c : Chain} (hc : c ∈ chains) : c.home = id := by
  obtain ⟨b, -, hy⟩ := h
  exact hy.home_eq hc

theorem Finds.adopts (h : s.Finds body id chains) {c : Chain} (hc : c ∈ chains) {m : Member}
    (hm : m ∈ c.members) : body.Adopts id m := by
  obtain ⟨b, hb, hy⟩ := h
  have hmem := hy.sublist_offers.subset (List.mem_flatMap.2 ⟨c, hc, hm⟩)
  obtain ⟨t, ht, hm⟩ := List.mem_flatMap.1 hmem
  exact Body.adopts_of_mem_offers hb ht hm

/-- A block with a chain has two conditionals of its own. -/
theorem Finds.two_le (h : s.Finds body id chains) {c : Chain} (hc : c ∈ chains) :
    ∃ b, body.block id = .ok b ∧ 2 ≤ b.conditionals.length := by
  obtain ⟨b, hb, hy⟩ := h
  have := hy.length_members_le hc
  simp only [List.length_nil, Nat.zero_add] at this
  exact ⟨b, hb, c.two_le.trans this⟩

theorem Finds.not_isRung (h : s.Finds body id chains) {c : Chain} (hc : c ∈ chains) (p : BlockId) :
    ¬ body.IsRung p id := by
  obtain ⟨b, hb, hl⟩ := h.two_le hc
  exact Body.not_isRung hb hl

/-- The branches of the members of one block, in order, lie among the blocks below it. -/
theorem Finds.nodup (tree : body.TreeShaped) (hroot : body.Reaches Body.root id)
    (h : s.Finds body id chains) :
    ((chains.flatMap Chain.members).map Member.thenBranch).Nodup := by
  obtain ⟨b, hb, hy⟩ := h
  have hn := tree.nests_root.of_reaches hroot
  obtain ⟨ids, hids⟩ := hn.exists_below
  obtain ⟨b', lists, hb', hl, rfl⟩ := Body.below_succ.1 hids
  obtain rfl := Body.block_unique hb hb'
  have hsub : ((b.statements.flatMap body.offers).map Member.thenBranch).Sublist lists.flatten := by
    have go : ∀ (l : List Statement) (lists : List (List BlockId)), List.Forall₂
        (fun c l => body.below body.size c = .ok l) (l.flatMap Statement.childBlocks) lists →
        ((l.flatMap body.offers).map Member.thenBranch).Sublist lists.flatten := by
      intro l
      induction l with
      | nil => exact fun _ _ => List.nil_sublist _
      | cons t l ih =>
        intro lists hl
        obtain ⟨l₁, l₂, h₁, h₂, rfl⟩ := forall₂_append_left hl
        rw [List.flatMap_cons, List.map_append, List.flatten_append]
        exact (Body.sublist_below h₁).append (ih l₂ h₂)
    exact go b.statements lists hl
  have hnodup := tree.nodup_below hroot hids
  rw [List.nodup_cons] at hnodup
  exact ((hy.sublist_offers.map Member.thenBranch).trans hsub).nodup hnodup.2

/-- **The discovered chains can be placed.** -/
theorem Discovers.placement (tree : body.TreeShaped) (h : s.Discovers body chains) :
    body.Placement chains := by
  obtain ⟨ids, lists, hids, hlists, rfl, -⟩ := h
  have hreach : ∀ id ∈ ids, body.Reaches Body.root id := fun id => (Body.mem_below hids).1
  have hpair := tree.pairwise_below .self hids
  have found : ∀ c ∈ lists.flatten, ∃ id ∈ ids, ∃ l, s.Finds body id l ∧ c ∈ l := by
    intro c hc
    obtain ⟨l, hl, hc⟩ := List.mem_flatten.1 hc
    obtain ⟨id, hid, hf⟩ := forall₂_exists_left hlists hl
    exact ⟨id, hid, l, hf, hc⟩
  have hadopts : ∀ c ∈ lists.flatten, ∀ m ∈ c.members, body.Adopts c.home m := by
    intro c hc m hm
    obtain ⟨id, -, l, hf, hc⟩ := found c hc
    exact hf.home_eq hc ▸ hf.adopts hc hm
  have hreaches : ∀ c ∈ lists.flatten, body.Reaches Body.root c.home := by
    intro c hc
    obtain ⟨id, hid, l, hf, hc⟩ := found c hc
    exact hf.home_eq hc ▸ hreach id hid
  refine ⟨hreaches, fun c hc => ?_, hadopts, ?_, ?_, fun c hc m hm heq => ?_, ?_⟩
  · obtain ⟨id, -, l, hf, hc⟩ := found c hc
    exact hf.home_eq hc ▸ hf.two_le hc
  · rw [List.flatten_eq_flatMap, List.flatMap_assoc, List.map_flatMap, List.nodup_flatMap]
    refine ⟨fun l hl => ?_, pairwise_of_forall₂ hlists hpair ?_⟩
    · obtain ⟨id, hid, hf⟩ := forall₂_exists_left hlists hl
      exact hf.nodup tree (hreach id hid)
    · -- blocks that are no rungs have no branch in common
      intro x hx y hy l l' hf hf' hxy t ht ht'
      obtain ⟨m, hm, rfl⟩ := List.mem_map.1 ht
      obtain ⟨m', hm', heq⟩ := List.mem_map.1 ht'
      obtain ⟨c, hc, hm⟩ := List.mem_flatMap.1 hm
      obtain ⟨c', hc', hm'⟩ := List.mem_flatMap.1 hm'
      have hsame := Body.adopts_unique tree (hf.not_isRung hc) (hf'.not_isRung hc')
        (hf.adopts hc hm) (hf'.adopts hc' hm') heq.symm
      exact hxy (hsame ▸ .self)
  · refine List.pairwise_flatten.2 ⟨fun l hl => ?_, pairwise_of_forall₂ hlists hpair ?_⟩
    · obtain ⟨id, hid, hf⟩ := forall₂_exists_left hlists hl
      -- a home would lie within itself
      refine List.pairwise_of_forall_mem_list fun c hc d hd m hm heq => ?_
      have hbelow := (hf.adopts hd hm).below
      rw [heq, hf.home_eq hc] at hbelow
      exact tree.irrefl_of_reaches (hreach id hid) hbelow
    · intro x hx y hy l l' hf hf' hxy c hc d hd m hm heq
      have hbelow := (hf'.adopts hd hm).below
      rw [heq, hf.home_eq hc] at hbelow
      exact hxy (Body.reaches_iff.2 hbelow.to_reflTransGen)
  · have hbelow := (hadopts c hc m hm).below
    rw [heq] at hbelow
    exact tree.irrefl_of_reaches (hreaches c hc) hbelow
  · exact grouped_flatten (tree.nodup_below .self hids) (hlists.imp fun id l hf c => hf.home_eq)

end Scanner

end BranchExclusion
