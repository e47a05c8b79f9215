import BranchExclusion.Chain.Instrument
import BranchExclusion.Proofs.Chain.Members

/-!
# What instrumentation does to one block

Statements go to two places of a block: its front, behind a leading constructor call, and its end,
before a trailing exit. Both places are looked up again for each statement.

* `Block.front_cases`, `Block.lastSignificant_eq_some`, `Block.assertionIndex_eq`: where the places
  are;
* `Block.weave`: the block with given statements at both places;
* `Block.pushFront_weave`, `Block.appendAssertion_weave`, `Block.spliceFront_weave`: one more
  statement goes where it would go in the block as it was.
-/

namespace BranchExclusion

/-- Where no statement is counted, the count is zero. -/
theorem countP_eq_zero_of_forall {p : Statement → Bool} {l : List Statement}
    (h : ∀ t ∈ l, p t = false) : l.countP p = 0 := by
  rw [List.countP_eq_zero]
  intro t ht
  simp [h t ht]

namespace Block

variable {b : Block} {pre post : List Statement} {s : Statement} {i : ℕ}

/-! ### The two places -/

/-- The front is the very beginning, or lies behind the first statement that is no comment. -/
theorem front_cases (b : Block) : b.front = 0 ∧ (b.prologue = true → b.significant = []) ∨
    b.prologue = true ∧ ∃ pre s post,
    b.statements = pre ++ s :: post ∧ s.isComment = false ∧ (∀ t ∈ pre, t.isComment = true) ∧
      b.front = pre.length + 1 := by
  unfold front
  by_cases hp : b.prologue = true
  · rw [if_pos hp]
    cases hi : b.statements.findIdx? fun s => !s.isComment with
    | none =>
      refine .inl ⟨rfl, fun _ => ?_⟩
      rw [List.findIdx?_eq_none_iff] at hi
      exact List.filter_eq_nil_iff.2 fun t ht => by simp [hi t ht]
    | some i =>
      obtain ⟨hlt, hs, hbefore⟩ := List.findIdx?_eq_some_iff_getElem.1 hi
      refine .inr ⟨hp, b.statements.take i, b.statements[i], b.statements.drop (i + 1),
        ?_, ?_, ?_, ?_⟩
      · rw [List.getElem_cons_drop, List.take_append_drop]
      · simpa using hs
      · intro t ht
        obtain ⟨j, hj, rfl⟩ := List.mem_iff_getElem.1 ht
        rw [List.length_take] at hj
        simpa using hbefore j (by omega)
      · simp only [List.length_take]
        omega
  · exact .inl ⟨if_neg hp, fun h => absurd h hp⟩

theorem front_of_prologue (hp : b.prologue = true) (hb : b.statements = pre ++ s :: post)
    (hs : s.isComment = false) (hpre : ∀ t ∈ pre, t.isComment = true) :
    b.front = pre.length + 1 := by
  have hnone : pre.findIdx? (fun t => !t.isComment) = none := by
    simpa [List.findIdx?_eq_none_iff] using hpre
  rw [front, if_pos hp, hb, List.findIdx?_append, hnone, List.findIdx?_cons]
  simp [hs]

theorem head?_significant (hb : b.statements = pre ++ s :: post) (hs : s.isComment = false)
    (hpre : ∀ t ∈ pre, t.isComment = true) : b.significant.head? = some s := by
  have hskip : pre.filter (fun t => !t.isComment) = [] := by simpa using hpre
  rw [significant, hb, List.filter_append, hskip, List.nil_append,
    List.filter_cons_of_pos (by simp [hs])]
  rfl

theorem lastSignificant_eq_some : b.lastSignificant = some (i, s) ↔ ∃ pre post,
    b.statements = pre ++ s :: post ∧ pre.length = i ∧ s.isComment = false ∧
      ∀ t ∈ post, t.isComment = true := by
  -- the last statement that is no comment is the first one from behind
  have hswap : b.lastSignificant = some (i, s) ↔
      b.statements.zipIdx.reverse.find? (fun p => !p.1.isComment) = some (s, i) := by
    unfold lastSignificant
    rw [Option.map_eq_some_iff]
    exact ⟨fun ⟨p, hp, heq⟩ => by cases heq; exact hp, fun h => ⟨_, h, rfl⟩⟩
  rw [hswap, List.find?_eq_some_iff_append]
  constructor
  · rintro ⟨hs, as, bs, hl, has⟩
    rw [List.reverse_eq_iff, List.reverse_append, List.reverse_cons, List.append_assoc] at hl
    obtain ⟨pre, rest, hb, -, hrest⟩ := List.zipIdx_eq_append_iff.1 hl
    obtain ⟨t, post, hr, heq, hpost⟩ := List.zipIdx_eq_cons_iff.1 hrest.symm
    simp only [Nat.zero_add, Prod.mk.injEq] at heq
    obtain ⟨rfl, rfl⟩ := heq
    refine ⟨pre, post, by rw [hb, hr], rfl, by simpa using hs, fun u hu => ?_⟩
    rw [← List.zipIdx_map_fst (0 + pre.length + 1) post, ← hpost] at hu
    obtain ⟨p, hp, rfl⟩ := List.mem_map.1 hu
    simpa using has p (List.mem_reverse.1 hp)
  · rintro ⟨pre, post, hb, rfl, hs, hpost⟩
    refine ⟨by simpa using hs, (post.zipIdx (pre.length + 1)).reverse, pre.zipIdx.reverse, ?_, ?_⟩
    · rw [hb, List.zipIdx_append, List.zipIdx_cons]
      simp
    · intro p hp
      have hmem := List.mem_map_of_mem (f := Prod.fst) (List.mem_reverse.1 hp)
      rw [List.zipIdx_map_fst] at hmem
      simpa using hpost p.1 hmem

theorem assertionIndex_eq (hb : b.statements = pre ++ s :: post) (hs : s.isComment = false)
    (hpost : ∀ t ∈ post, t.isComment = true) :
    b.assertionIndex = if s.isExit then pre.length else b.statements.length := by
  rw [assertionIndex, lastSignificant_eq_some.2 ⟨pre, post, hb, rfl, hs, hpost⟩]

/-- A statement that is no comment is followed by a last one. -/
theorem exists_lastSignificant {l : List Statement} (h : ∃ t ∈ l, t.isComment = false) :
    ∃ pre s post, l = pre ++ s :: post ∧ s.isComment = false ∧ ∀ t ∈ post, t.isComment = true := by
  induction l with
  | nil =>
    obtain ⟨t, ht, -⟩ := h
    cases ht
  | cons u l ih =>
    by_cases hl : ∃ t ∈ l, t.isComment = false
    · obtain ⟨pre, s, post, rfl, hs, hpost⟩ := ih hl
      exact ⟨u :: pre, s, post, rfl, hs, hpost⟩
    · obtain ⟨t, ht, hc⟩ := h
      rcases List.mem_cons.1 ht with rfl | ht
      · refine ⟨[], t, l, rfl, hc, fun v hv => ?_⟩
        by_contra hne
        exact hl ⟨v, hv, by simpa using hne⟩
      · exact absurd ⟨t, ht, hc⟩ hl

/-- Where a conditional follows the front, the last statement that is no comment follows it too. -/
theorem exists_tail (hl : 2 ≤ b.conditionals.length) : ∃ pre s post,
    b.statements.drop b.front = pre ++ s :: post ∧ s.isComment = false ∧
      ∀ t ∈ post, t.isComment = true := by
  refine exists_lastSignificant ?_
  have conditional : ∀ {l : List Statement}, 0 < (l.filterMap Statement.conditional?).length →
      ∃ t ∈ l, t.isComment = false := by
    intro l hpos
    obtain ⟨c, hc⟩ := List.exists_mem_of_length_pos hpos
    obtain ⟨t, ht, hcond⟩ := List.mem_filterMap.1 hc
    rw [Statement.conditional?_eq_some] at hcond
    exact ⟨t, ht, by rw [hcond]; rfl⟩
  unfold conditionals at hl
  rcases b.front_cases with ⟨hf, -⟩ | ⟨-, pre, s, post, hb, -, hpre, hf⟩
  · rw [hf, List.drop_zero]
    exact conditional (by omega)
  · -- at most one conditional stands before the front, the constructor call's place
    have hskip : pre.filterMap Statement.conditional? = [] := by
      rw [List.filterMap_eq_nil_iff]
      intro t ht
      have := hpre t ht
      cases t <;> first | rfl | cases this
    rw [hf, hb, List.drop_append, List.drop_of_length_le (Nat.le_succ _)]
    rw [hb, List.filterMap_append, hskip, List.nil_append, ← List.singleton_append,
      List.filterMap_append, List.length_append] at hl
    have hone := List.length_filterMap_le Statement.conditional? [s]
    rw [List.length_singleton] at hone
    simpa using conditional (l := post) (by omega)

/-! ### Both places filled -/

/-- The block with `d` and `a` at its front and `e` at its end, before a trailing exit. -/
def weave (b : Block) (d a e : List Statement) : Block :=
  let k := max b.front b.assertionIndex
  { b with statements := b.statements.take b.front ++ d ++ a ++
      (b.statements.take k).drop b.front ++ e ++ b.statements.drop k }

variable {d a e : List Statement}

/-- Cut at both places and put together again, a list is as it was. -/
theorem take_drop_take {l : List Statement} {f k : ℕ} (h : f ≤ k) :
    l.take f ++ (l.take k).drop f = l.take k := by
  have hf : l.take f = (l.take k).take f := by rw [List.take_take, Nat.min_eq_left h]
  rw [hf, List.take_append_drop]

@[simp] theorem weave_nil (b : Block) : b.weave [] [] [] = b := by
  have hk := take_drop_take (l := b.statements) (Nat.le_max_left b.front b.assertionIndex)
  simp only [weave, List.append_nil, hk, List.take_append_drop]

/-- Nothing is lost and nothing else comes in. -/
theorem mem_weave {t : Statement} :
    t ∈ (b.weave d a e).statements ↔ t ∈ b.statements ∨ t ∈ d ∨ t ∈ a ∨ t ∈ e := by
  have hk := take_drop_take (l := b.statements) (Nat.le_max_left b.front b.assertionIndex)
  have hb : t ∈ b.statements ↔ t ∈ b.statements.take b.front ∨
      t ∈ (b.statements.take (max b.front b.assertionIndex)).drop b.front ∨
      t ∈ b.statements.drop (max b.front b.assertionIndex) := by
    conv_lhs => rw [← List.take_append_drop (max b.front b.assertionIndex) b.statements, ← hk]
    rw [List.mem_append, List.mem_append, or_assoc]
  rw [hb]
  simp only [weave, List.mem_append, or_assoc, or_left_comm, or_comm]

theorem countP_weave {p : Statement → Bool} (h : ∀ t ∈ b.statements, p t = false) :
    (b.weave d a e).statements.countP p = d.countP p + a.countP p + e.countP p := by
  have hzero : ∀ l : List Statement, l ⊆ b.statements → l.countP p = 0 := fun l hl =>
    countP_eq_zero_of_forall fun t ht => h t (hl ht)
  simp only [weave, List.countP_append]
  rw [hzero _ (List.take_subset _ _), hzero _ (List.drop_subset _ _),
    hzero _ (List.Subset.trans (List.drop_subset _ _) (List.take_subset _ _))]
  omega

theorem pushFront_weave (b : Block) (s : Statement) : b.pushFront s = b.weave [] [s] [] := by
  have hk := take_drop_take (l := b.statements) (Nat.le_max_left b.front b.assertionIndex)
  have hrest : (b.statements.take (max b.front b.assertionIndex)).drop b.front ++
      b.statements.drop (max b.front b.assertionIndex) = b.statements.drop b.front := by
    refine (List.append_right_inj (b.statements.take b.front)).1 ?_
    rw [← List.append_assoc, hk, List.take_append_drop, List.take_append_drop]
  simp only [pushFront, insertAt, spliceAt, weave, List.append_nil, List.append_assoc, hrest]

/-- The shape of a block with two conditionals, with statements woven in or not: the last statement
that is no comment decides whether there is something behind the end. -/
theorem weave_cases (hl : 2 ≤ b.conditionals.length) : ∃ pre s post,
    b.statements.drop b.front = pre ++ s :: post ∧ s.isComment = false ∧
    (∀ t ∈ post, t.isComment = true) ∧
    ((s.isExit = true ∧ ∀ d a e, (b.weave d a e).statements =
        b.statements.take b.front ++ d ++ a ++ pre ++ e ++ s :: post) ∨
      (s.isExit = false ∧ ∀ d a e, (b.weave d a e).statements =
        b.statements.take b.front ++ d ++ a ++ (pre ++ s :: post) ++ e)) := by
  obtain ⟨pre, s, post, hd, hs, hpost⟩ := exists_tail hl
  refine ⟨pre, s, post, hd, hs, hpost, ?_⟩
  have hb : b.statements = (b.statements.take b.front ++ pre) ++ s :: post := by
    rw [List.append_assoc, ← hd, List.take_append_drop]
  have hlen : (b.statements.take b.front).length = b.front := by
    rw [List.length_take, Nat.min_eq_left b.front_le_length]
  have hk := assertionIndex_eq hb hs hpost
  by_cases hexit : s.isExit = true
  · refine .inl ⟨hexit, fun d a e => ?_⟩
    rw [if_pos hexit, List.length_append, hlen] at hk
    have hmax : max b.front b.assertionIndex = b.front + pre.length := by omega
    simp only [weave, hmax, List.drop_take, Nat.add_sub_cancel_left, hd, List.take_left]
    rw [← List.drop_drop, hd, List.drop_left]
  · refine .inr ⟨by simpa using hexit, fun d a e => ?_⟩
    rw [if_neg hexit] at hk
    have hmax : max b.front b.assertionIndex = b.statements.length := by
      rw [hk, Nat.max_eq_right b.front_le_length]
    simp only [weave, hmax, List.take_length, List.drop_length, List.append_nil, hd]

/-- The front of a block with two conditionals stays when statements are woven in. -/
theorem front_weave (hl : 2 ≤ b.conditionals.length) (d a e : List Statement) :
    (b.weave d a e).front = b.front := by
  by_cases hp : b.prologue = true
  · rcases b.front_cases with ⟨hf, hnone⟩ | ⟨-, pre, s, post, hb, hs, hpre, hf⟩
    · -- a conditional is a statement that is no comment
      obtain ⟨pre, s, post, hd, hs, -⟩ := exists_tail hl
      have hmem : s ∈ b.significant :=
        List.mem_filter.2 ⟨List.drop_subset b.front _ (by simp [hd]), by simpa using hs⟩
      rw [hnone hp] at hmem
      cases hmem
    · have hw : (b.weave d a e).statements = pre ++ s ::
          (d ++ a ++ (b.statements.take (max b.front b.assertionIndex)).drop b.front ++ e ++
            b.statements.drop (max b.front b.assertionIndex)) := by
        have htake : b.statements.take b.front = pre ++ [s] := by
          rw [hf, hb, List.take_append, List.take_of_length_le (Nat.le_succ _)]
          simp
        simp [weave, htake]
      rw [front_of_prologue (b := b.weave d a e) hp hw hs hpre, hf]
  · have hp' : b.prologue = false := by simpa using hp
    rw [front_of_prologue_eq_false hp', front_of_prologue_eq_false (b := b.weave d a e) hp']

/-- One more assertion goes behind the others. -/
theorem appendAssertion_weave (hl : 2 ≤ b.conditionals.length) (a e : List Statement)
    {t : Statement} (he : ∀ u ∈ e, u.isComment = false ∧ u.isExit = false) :
    (b.weave [] a e).appendAssertion t = b.weave [] a (e ++ [t]) := by
  obtain ⟨pre, s, post, -, hs, hpost, ⟨hexit, hw⟩ | ⟨hexit, hw⟩⟩ := weave_cases hl
  · -- the exit is still the last statement that is no comment
    have hk := assertionIndex_eq (hw [] a e) hs hpost
    rw [if_pos hexit] at hk
    have hsplit : ((b.weave [] a e).appendAssertion t).statements =
        (b.weave [] a (e ++ [t])).statements := by
      rw [appendAssertion, statements_insertAt, hk, hw, hw, List.take_left, List.drop_left]
      simp
    calc (b.weave [] a e).appendAssertion t
        = { b with statements := ((b.weave [] a e).appendAssertion t).statements } := rfl
      _ = b.weave [] a (e ++ [t]) := by rw [hsplit]; rfl
  · -- the last assertion is the last statement now, and it is no exit
    have hk : (b.weave [] a e).assertionIndex = (b.weave [] a e).statements.length := by
      rcases List.eq_nil_or_concat e with rfl | ⟨e, u, rfl⟩
      · have hb : (b.weave [] a []).statements =
            (b.statements.take b.front ++ [] ++ a ++ pre) ++ s :: post := by
          rw [hw]
          simp
        rw [assertionIndex_eq hb hs hpost, if_neg (by simp [hexit])]
      · obtain ⟨hu, hue⟩ := he u (by simp)
        have hb : (b.weave [] a (e ++ [u])).statements =
            (b.statements.take b.front ++ [] ++ a ++ (pre ++ s :: post) ++ e) ++ u :: [] := by
          rw [hw]
          simp
        rw [List.concat_eq_append, assertionIndex_eq hb hu (by simp), if_neg (by simp [hue])]
    have hsplit : ((b.weave [] a e).appendAssertion t).statements =
        (b.weave [] a (e ++ [t])).statements := by
      rw [appendAssertion, statements_insertAt, hk, List.take_length, List.drop_length, hw, hw]
      simp
    calc (b.weave [] a e).appendAssertion t
        = { b with statements := ((b.weave [] a e).appendAssertion t).statements } := rfl
      _ = b.weave [] a (e ++ [t]) := by rw [hsplit]; rfl

/-- The declarations go before what the front has taken so far. -/
theorem spliceFront_weave (hl : 2 ≤ b.conditionals.length) (d a e : List Statement) :
    (b.weave [] a e).spliceFront d = b.weave d a e := by
  have hlen : (b.statements.take b.front).length = b.front := by
    rw [List.length_take, Nat.min_eq_left b.front_le_length]
  have htake : (b.weave [] a e).statements.take b.front = b.statements.take b.front := by
    simp only [weave, List.append_assoc]
    exact List.take_left' hlen
  have hdrop : (b.weave [] a e).statements.drop b.front =
      a ++ (b.statements.take (max b.front b.assertionIndex)).drop b.front ++ e ++
        b.statements.drop (max b.front b.assertionIndex) := by
    simp only [weave, List.append_assoc]
    exact List.drop_left' hlen
  rw [spliceFront, front_weave hl, spliceAt, htake, hdrop]
  simp [weave]

end Block

end BranchExclusion
