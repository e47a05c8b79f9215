import BranchExclusion.Proofs.Chain.Placement
import BranchExclusion.Proofs.Chain.Removal

/-!
# The two policies and the length of chains

* `Pieces`: lists that lie in another list one behind the other;
* `Scanner.Splits`: chains that are pieces of other chains, in the same order;
* `Scanner.Yields.splits`: two scans side by side, of which one ends a run where the other passes
  over a conditional;
* `Scanner.Yields.longer`: a greater least length leaves out the chains that are shorter;
* `Scanner.policies_and_lengths`: how the results of the scans of one block are related.
-/

namespace BranchExclusion

/-- The lists `parts` lie in `whole` one behind the other, each without a gap of its own. -/
inductive Pieces {α : Type} : List (List α) → List α → Prop
  | none (whole : List α) : Pieces [] whole
  | piece (gap part : List α) {parts : List (List α)} {rest : List α} : Pieces parts rest →
      Pieces (part :: parts) (gap ++ part ++ rest)

namespace Pieces

variable {α : Type} {parts parts' : List (List α)} {whole whole' part : List α}

theorem prepend (h : Pieces parts whole) (front : List α) : Pieces parts (front ++ whole) := by
  cases h with
  | none => exact .none _
  | piece gap part h =>
    rw [← List.append_assoc, ← List.append_assoc]
    exact .piece (front ++ gap) part h

theorem append (h : Pieces parts whole) (h' : Pieces parts' whole') :
    Pieces (parts ++ parts') (whole ++ whole') := by
  induction h with
  | none whole => exact h'.prepend whole
  | piece gap part _ ih =>
    rw [List.append_assoc]
    exact .piece gap part ih

theorem single (part : List α) : Pieces [part] part := by
  have h : Pieces [part] ([] ++ part ++ []) := .piece [] part (.none [])
  simpa using h

theorem isInfix (h : Pieces parts whole) (hp : part ∈ parts) : part <:+: whole := by
  induction h with
  | none => cases hp
  | @piece gap here parts rest _ ih =>
    rcases List.mem_cons.1 hp with rfl | hp
    · exact ⟨gap, rest, rfl⟩
    · exact (ih hp).trans (List.suffix_append _ _).isInfix

end Pieces

namespace Scanner

variable {s s' : Scanner} {body : Body} {home id : BlockId} {l : List Statement}
  {chains parts : List Chain}

/-- Each of the chains `parts` is a piece of one of the chains `wholes`, and both come in the same
order. -/
def Splits (wholes parts : List Chain) : Prop :=
  ∃ groups : List (List Chain), List.Forall₂ (fun c g => Pieces (g.map Chain.members) c.members)
    wholes groups ∧ parts = groups.flatten

theorem Splits.nil : Splits [] [] := ⟨[], .nil, rfl⟩

theorem Splits.append {wholes wholes' parts' : List Chain} (h : Splits wholes parts)
    (h' : Splits wholes' parts') : Splits (wholes ++ wholes') (parts ++ parts') := by
  obtain ⟨groups, hg, rfl⟩ := h
  obtain ⟨groups', hg', rfl⟩ := h'
  exact ⟨groups ++ groups', List.rel_append hg hg', by rw [List.flatten_append]⟩

theorem pieces_close (s : Scanner) (home : BlockId) (run : List Member) :
    Pieces ((s.close home run).map Chain.members) run := by
  unfold close
  split
  · exact .single run
  · exact .none run

/-- Both scans close their runs. The run of the one goes back beyond that of the other, and the
chains `closed` were found in the part in front. -/
theorem splits_close (hlength : s.minLength = s'.minLength) {front run : List Member}
    {closed : List Chain} (hclosed : Pieces (closed.map Chain.members) front)
    (hlong : ∀ c ∈ closed, s'.minLength ≤ c.members.length) :
    Splits (s.close home (front ++ run)) (closed ++ s'.close home run) := by
  by_cases hl : s.minLength ≤ (front ++ run).length
  · have hclose : s.close home (front ++ run) = [⟨home, front ++ run, s.two_le.trans hl⟩] :=
      dif_pos hl
    rw [hclose]
    refine ⟨[closed ++ s'.close home run], .cons ?_ .nil, by simp⟩
    rw [List.map_append]
    exact hclosed.append (pieces_close s' home run)
  · have hnone : closed = [] := by
      refine List.eq_nil_iff_forall_not_mem.2 fun c hc => hl ?_
      have hle := (hclosed.isInfix (List.mem_map_of_mem hc)).length_le
      rw [hlength, List.length_append]
      exact (hlong c hc).trans (hle.trans (Nat.le_add_right _ _))
    have hshort : ¬ s'.minLength ≤ run.length := by
      rw [hlength, List.length_append] at hl
      omega
    have hclose : s.close home (front ++ run) = [] := dif_neg hl
    have hclose' : s'.close home run = [] := dif_neg hshort
    rw [hclose, hclose', hnone]
    exact .nil

theorem length_of_mem_close {run : List Member} {c : Chain} (h : c ∈ s.close home run) :
    s.minLength ≤ c.members.length := by
  obtain ⟨-, hm, hle⟩ := length_ge_of_mem_close h
  rwa [hm]

/-- Two scans side by side. The open run under the barrier policy is the end of the open run under
the transparent one, and the chains `closed` were found in the part in front of it. -/
theorem Yields.splits (front run : List Member) (closed : List Chain)
    (hy : s.Yields body home (front ++ run) l chains) (hy' : s'.Yields body home run l parts)
    (hpolicy : s.policy = .transparent) (hpolicy' : s'.policy = .barrier)
    (hlength : s.minLength = s'.minLength) (hclosed : Pieces (closed.map Chain.members) front)
    (hlong : ∀ c ∈ closed, s'.minLength ≤ c.members.length) :
    Splits chains (closed ++ parts) := by
  have agree : ∀ {c e e'}, exits body c = .ok e → exits body c = .ok e' → e = e' := by
    intro c e e' he he'
    rwa [he, Except.ok.injEq] at he'
  generalize hrun : front ++ run = whole at hy
  induction hy generalizing front run closed parts with
  | done =>
    cases hy'
    rw [← hrun]
    exact splits_close hlength hclosed hlong
  | comment _ ih =>
    cases hy' with
    | comment hy' => exact ih front run closed hy' hclosed hlong hrun
    | other hcomment => cases hcomment
  | barrier _ hp =>
    rw [hpolicy] at hp
    cases hp
  | @single whole c rest chains e he _ hnone _ ih =>
    cases hy' with
    | other _ hcond => cases hcond
    | ladder _ _ hsome =>
      rw [hnone] at hsome
      cases hsome
    | barrier he' _ hy' =>
      -- the one run goes on, and what the other has found is in front of the next
      obtain rfl := agree he' he
      rw [← List.append_assoc]
      refine ih (front ++ run) [] (closed ++ s'.close home run) hy' ?_ (fun d hd => ?_) ?_
      · rw [List.map_append]
        exact hclosed.append (pieces_close s' home run)
      · exact (List.mem_append.1 hd).elim (hlong d) length_of_mem_close
      · rw [List.append_nil]
        exact hrun
    | single he' hp' _ hy' =>
      obtain rfl := agree he he'
      have hstays : e = false := Bool.eq_false_iff.2 fun h => hp' h hpolicy'
      subst hstays
      refine ih front _ closed hy' hclosed hlong ?_
      rw [← hrun]
      exact (List.append_assoc _ _ _).symm
  | @ladder whole next c alternative rest chains e he _ hsome hnext _ ih =>
    cases hy' with
    | other _ hcond => cases hcond
    | single _ _ hnone =>
      rw [hnone] at hsome
      cases hsome
    | barrier he' _ hy' =>
      -- both runs end here, and only the one starts again with a member
      obtain rfl := agree he' he
      rw [← List.append_assoc]
      refine Splits.append ?_ (ih next [] [] hy' (.none next) (by simp)
        (List.append_nil next))
      rw [extend, if_pos rfl, ← hrun]
      exact splits_close hlength hclosed hlong
    | ladder he' hp' hsome' hnext' hy' =>
      obtain rfl := agree he he'
      rw [hsome, Option.some.injEq] at hsome'
      subst hsome'
      rw [hnext, Except.ok.injEq] at hnext'
      subst hnext'
      have hstays : e = false := Bool.eq_false_iff.2 fun h => hp' h hpolicy'
      subst hstays
      rw [← List.append_assoc]
      refine Splits.append ?_ (ih [] _ [] hy' (.none []) (by simp) rfl)
      have hextend : extend whole false c = front ++ extend run false c := by
        rw [← hrun]
        exact List.append_assoc _ _ _
      rw [hextend]
      exact splits_close hlength hclosed hlong
  | other hcomment hcond _ ih =>
    cases hy' with
    | comment => cases hcomment
    | other _ _ hy' =>
      rw [← List.append_assoc, ← hrun]
      exact (splits_close hlength hclosed hlong).append
        (ih [] _ [] hy' (.none []) (by simp) rfl)
    | _ => cases hcond

/-- Chains that have no member in common are different chains. -/
theorem eq_of_mem_members (hnodup : (chains.flatMap Chain.members).Nodup) {i j : ℕ} {c d : Chain}
    (hc : chains[i]? = some c) (hd : chains[j]? = some d) {m : Member} (hmc : m ∈ c.members)
    (hmd : m ∈ d.members) : i = j := by
  have hpair := List.pairwise_iff_getElem.1 (List.nodup_flatMap.1 hnodup).2
  obtain ⟨hi, rfl⟩ := List.getElem?_eq_some_iff.1 hc
  obtain ⟨hj, rfl⟩ := List.getElem?_eq_some_iff.1 hd
  rcases lt_trichotomy i j with hlt | heq | hlt
  · exact (hpair i j hi hj hlt hmc hmd).elim
  · exact heq
  · exact (hpair j i hj hi hlt hmd hmc).elim

/-- A piece of one of several chains that have no member in common is a piece of only one. -/
theorem Splits.existsUnique (h : Splits chains parts)
    (hnodup : (chains.flatMap Chain.members).Nodup) {c : Chain} (hc : c ∈ parts) :
    ∃! k : ℕ, ∃ d : Chain, chains[k]? = some d ∧ c.members <:+: d.members := by
  obtain ⟨groups, hg, rfl⟩ := h
  obtain ⟨g, hmem, hc⟩ := List.mem_flatten.1 hc
  obtain ⟨k, hk, rfl⟩ := List.getElem_of_mem hmem
  have hlt : k < chains.length := hg.length_eq ▸ hk
  have hpart : c.members <:+: chains[k].members :=
    (hg.get hlt hk).isInfix (List.mem_map_of_mem hc)
  refine ⟨k, ⟨chains[k], List.getElem?_eq_getElem hlt, hpart⟩, ?_⟩
  rintro j ⟨d, hd, hpart'⟩
  obtain ⟨m, hm⟩ := List.exists_mem_of_length_pos (Nat.lt_of_lt_of_le Nat.two_pos c.two_le)
  exact eq_of_mem_members hnodup hd (List.getElem?_eq_getElem hlt) (hpart'.subset hm)
    (hpart.subset hm)

/-! ### The length -/

theorem filter_close (hle : s.minLength ≤ s'.minLength) (home : BlockId) (run : List Member) :
    (s.close home run).filter (fun c => s'.minLength ≤ c.members.length) = s'.close home run := by
  unfold close
  by_cases hl' : s'.minLength ≤ run.length
  · simp [hl', hle.trans hl']
  · by_cases hl : s.minLength ≤ run.length <;> simp [hl, hl']

/-- A greater least length leaves out the chains that are shorter. -/
theorem Yields.longer {run : List Member} (hy : s.Yields body home run l chains)
    (hpolicy : s.policy = s'.policy) (hle : s.minLength ≤ s'.minLength) :
    s'.Yields body home run l (chains.filter fun c => s'.minLength ≤ c.members.length) := by
  induction hy with
  | done =>
    rw [filter_close hle]
    exact .done
  | comment _ ih => exact .comment ih
  | barrier he hp _ ih =>
    rw [List.filter_append, filter_close hle]
    exact .barrier he (hpolicy ▸ hp) ih
  | single he hp hnone _ ih => exact .single he (hpolicy ▸ hp) hnone ih
  | ladder he hp hsome hnext _ ih =>
    rw [List.filter_append, filter_close hle]
    exact .ladder he (hpolicy ▸ hp) hsome hnext ih
  | other hcomment hcond _ ih =>
    rw [List.filter_append, filter_close hle]
    exact .other hcomment hcond ih

/-! ### The scans of one block -/

/-- Both policies find the same chains in a block that no conditional leaves directly. -/
theorem scan_eq_of_stays {b : Block} (tree : body.TreeShaped) (hroot : body.Reaches Body.root id)
    (hpolicy : s.policy = .transparent) (hlength : s.minLength = s'.minLength)
    (hb : body.block id = .ok b)
    (hstays : ∀ c, Statement.conditional c ∈ b.statements → body.leaves c = false) {after : Body}
    (h : s.scan body id = .ok (after, chains)) : ∃ rest, s'.scan body id = .ok (rest, chains) := by
  have hwhole : body.set id (body.withoutLeaving b) = body := by
    have hall : b.statements.filter body.stays = b.statements := by
      refine List.filter_eq_self.2 fun t ht => ?_
      cases hcond : t.conditional? with
      | none => simp [Body.stays, hcond]
      | some c =>
        rw [Statement.conditional?_eq_some] at hcond
        subst hcond
        simp [Body.stays_conditional, hstays c ht]
    rw [Body.withoutLeaving, hall]
    exact Body.set_eq_self hb
  rw [← hwhole]
  exact scan_withoutLeaving tree hroot hpolicy hlength hb
    (fun c hc hleaves => by simp [hstays c hc] at hleaves) h

/-- **How the policies and the lengths are related.** Every block of a tree-shaped body that the
root leads to can be scanned under both policies and with every least length.

The chains under the barrier policy are pieces of the chains under the transparent one, in the same
order, and each of them is a piece of only one. Both are the same when no conditional of the block
directly leaves it. When none that does has an alternative, the transparent policy finds the chains
that the other finds in the block without these conditionals. A greater least length leaves out the
chains that are shorter. -/
theorem policies_and_lengths (body : Body) (id : BlockId) (tree : body.TreeShaped)
    (h : body.Reaches Body.root id) :
    (∀ length, ∃ after barrier transparent,
      (new .barrier length).scan body id = .ok (after, barrier) ∧
      (new .transparent length).scan body id = .ok (after, transparent) ∧
      Splits transparent barrier ∧
      (∀ c ∈ barrier, ∃! k : ℕ, ∃ d : Chain, transparent[k]? = some d ∧ c.members <:+: d.members) ∧
      ∀ b, body.block id = .ok b →
        ((∀ c, .conditional c ∈ b.statements → body.leaves c = false) → barrier = transparent) ∧
        ((∀ c, .conditional c ∈ b.statements → body.leaves c = true → c.elseBranch = none) →
          ∃ rest, (new .barrier length).scan (body.set id (body.withoutLeaving b)) id =
            .ok (rest, transparent))) ∧
    ∀ policy length, 2 ≤ length → ∃ after all,
      (new policy 2).scan body id = .ok (after, all) ∧
      (new policy length).scan body id =
        .ok (after, all.filter fun c => length ≤ c.members.length) := by
  have hnests := tree.nests_root.of_reaches h
  refine ⟨fun length => ?_, fun policy length hle => ?_⟩
  · obtain ⟨after, transparent, hscan, hf, htree, hnormal, hfinds⟩ :=
      exists_scan (s := new .transparent length) tree hnests (Nat.le_refl _)
    obtain ⟨after', barrier, hscan', -, -, -, b', hb', hy'⟩ :=
      exists_scan (s := new .barrier length) tree hnests (Nat.le_refl _)
    obtain rfl : after' = after := by
      have hafter := (scan_eq_ok.1 hscan').1
      rwa [(scan_eq_ok.1 hscan).1, Except.ok.injEq, eq_comm] at hafter
    have ⟨b₁, hb₁, hy⟩ := hfinds
    obtain rfl := Body.block_unique hb' hb₁
    have hsplits : Splits transparent barrier :=
      Yields.splits [] [] [] hy hy' rfl rfl rfl (.none []) (by simp)
    have hnodup := (hfinds.nodup htree (hf.reaches h)).of_map
    have hpolicy : (new .transparent length).policy = .transparent := rfl
    have hlength : (new .transparent length).minLength = (new .barrier length).minLength := rfl
    refine ⟨after', barrier, transparent, hscan', hscan, hsplits,
      fun c hc => hsplits.existsUnique hnodup hc, fun b hb => ⟨fun hstays => ?_, fun halt => ?_⟩⟩
    · obtain ⟨rest, hsame⟩ : ∃ rest, (new .barrier length).scan body id = .ok (rest, transparent) :=
        scan_eq_of_stays tree h hpolicy hlength hb hstays hscan
      rw [hscan', Except.ok.injEq, Prod.mk.injEq] at hsame
      exact hsame.2
    · exact scan_withoutLeaving tree h hpolicy hlength hb halt hscan
  · obtain ⟨after, all, hscan, -, -, -, b, hb, hy⟩ :=
      exists_scan (s := new policy 2) tree hnests (Nat.le_refl _)
    refine ⟨after, all, hscan, scan_eq_ok.2 ⟨(scan_eq_ok.1 hscan).1, b, hb, ?_⟩⟩
    have hlonger : (new policy length).Yields after id [] b.statements _ :=
      hy.longer rfl (Nat.le_max_left 2 length)
    rwa [show (new policy length).minLength = length from Nat.max_eq_right hle] at hlonger

/-- Under the barrier policy the conditional that returns ends the first run before it has a second
member. The run behind the ladder is the same under both, and so are both runs once this conditional
is taken out. -/
theorem policies_and_lengths_returning : returningBetween.TreeShaped ∧
    returningBetween.Reaches Body.root Body.root ∧ 2 ≤ 3 ∧ ∃ after first second,
      (new .transparent 2).scan returningBetween Body.root = .ok (after, [first, second]) ∧
      (new .barrier 2).scan returningBetween Body.root = .ok (after, [second]) ∧
      Splits [first, second] [second] ∧
      (∃ b rest, returningBetween.block Body.root = .ok b ∧ (new .barrier 2).scan
        (returningBetween.set Body.root (returningBetween.withoutLeaving b)) Body.root =
          .ok (rest, [first, second])) ∧
      (new .transparent 3).scan returningBetween Body.root = .ok (after, []) := by
  refine ⟨treeShaped_returningBetween, .self, by decide, ?_⟩
  obtain ⟨hpolicies, hlengths⟩ :=
    policies_and_lengths returningBetween Body.root treeShaped_returningBetween .self
  obtain ⟨after, barrier, transparent, hbarrier, htransparent, hsplits, -, hrest⟩ := hpolicies 2
  obtain ⟨after', all, hall, hlong⟩ := hlengths .transparent 3 (by decide)
  obtain ⟨_, hscan⟩ : ∃ after, (new .transparent 2).scan returningBetween Body.root =
      .ok (after, [⟨Body.root, [⟨3, 1⟩, ⟨10, 3⟩], by decide⟩,
        ⟨Body.root, [⟨12, 5⟩, ⟨15, 6⟩], by decide⟩]) := ⟨_, by rfl⟩
  obtain ⟨_, hscan'⟩ : ∃ after, (new .barrier 2).scan returningBetween Body.root =
      .ok (after, [⟨Body.root, [⟨12, 5⟩, ⟨15, 6⟩], by decide⟩]) := ⟨_, by rfl⟩
  rw [htransparent, Except.ok.injEq, Prod.mk.injEq] at hscan
  rw [hbarrier, Except.ok.injEq, Prod.mk.injEq] at hscan'
  rw [htransparent, Except.ok.injEq, Prod.mk.injEq] at hall
  obtain ⟨rfl, rfl⟩ := hall
  obtain ⟨rfl, rfl⟩ := hscan
  obtain ⟨-, rfl⟩ := hscan'
  obtain ⟨rest, hwithout⟩ := (hrest returningBetween.blocks[0] rfl).2 (by
    intro c hc hleaves
    simp only [returningBetween, List.getElem_toArray, List.getElem_cons_zero, List.mem_cons,
      Statement.conditional.injEq, reduceCtorEq, List.not_mem_nil, or_false, false_or] at hc
    rcases hc with rfl | rfl | rfl | rfl
    · rfl
    · rfl
    · cases hleaves
    · rfl)
  exact ⟨after, _, _, htransparent, hbarrier, hsplits, ⟨_, rest, rfl, hwithout⟩, hlong⟩

end Scanner

end BranchExclusion
