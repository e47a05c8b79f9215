import BranchExclusion.Proofs.Java.Tree

/-!
# The blocks that a statement owns

* `Tree.subperm_statementOf`: a statement owns each of its blocks at most once, whatever the tree;
* `Tree.length_conditional`, `Tree.length_compound`, `Tree.length_try`: it owns all of them, when no
  two of them are the same to it.
-/

namespace BranchExclusion.Java.Tree

/-! ### Blocks by what they are to their owner -/

/-- The block is the body of a `catch`. -/
def OwnedAs.isHandler : OwnedAs → Bool
  | .handler _ => true
  | _ => false

theorem subperm_map {α β : Type} {l l' : List α} (f : α → β) (h : l.Subperm l') :
    (l.map f).Subperm (l'.map f) := by
  obtain ⟨k, hperm, hsub⟩ := h
  exact ⟨k.map f, hperm.map f, hsub.map f⟩

theorem subperm_filter {α : Type} {p q : α → Bool} (l : List α)
    (h : ∀ a, q a = true → p a = false) : (l.filter p ++ l.filter q).Subperm l := by
  have hsub : (l.filter q).Sublist (l.filter fun a => !p a) := by
    apply List.monotone_filter_right
    intro a hq
    simp [h a hq]
  exact ((List.Sublist.refl _).append hsub).subperm.trans (List.filter_append_perm p l).subperm

section Owned

variable (owned : List (OwnedAs × BlockId)) (as : OwnedAs)

theorem owned?_cons (k : OwnedAs) (id : BlockId) :
    owned? as ((k, id) :: owned) = if k = as then some id else owned? as owned := by
  by_cases hk : k = as
  · subst hk
    simp [owned?]
  · have hne : (as == k) = false := by simpa using Ne.symm hk
    simp [owned?, List.lookup_cons, hne, hk]

theorem sublist_owned? :
    (owned? as owned).toList.Sublist ((owned.filter fun o => o.1 = as).map Prod.snd) := by
  induction owned with
  | nil => exact .refl _
  | cons o rest ih =>
    obtain ⟨k, id⟩ := o
    rw [owned?_cons]
    by_cases hk : k = as
    · simp [hk]
    · simpa [hk] using ih

theorem length_owned? :
    (owned? as owned).toList.length = min 1 ((owned.map Prod.fst).count as) := by
  induction owned with
  | nil => rfl
  | cons o rest ih =>
    obtain ⟨k, id⟩ := o
    rw [owned?_cons]
    by_cases hk : k = as
    · rw [if_pos hk, List.map_cons, hk, List.count_cons_self, Option.toList_some,
        List.length_singleton]
      omega
    · rw [if_neg hk, ih, List.map_cons, List.count_cons_of_ne hk]

theorem map_body_handlers :
    (handlers owned).map CatchClause.body =
      (owned.filter fun o => o.1.isHandler).map Prod.snd := by
  induction owned with
  | nil => rfl
  | cons o rest ih =>
    obtain ⟨k, id⟩ := o
    cases k with
    | handler header => exact congrArg (id :: ·) ih
    | _ => exact ih

theorem length_handlers :
    (handlers owned).length = (owned.map Prod.fst).countP OwnedAs.isHandler := by
  rw [← List.length_map CatchClause.body, map_body_handlers, List.length_map, List.countP_map,
    List.countP_eq_length_filter]
  rfl

/-- Every block is one or the other to its statement. -/
theorem length_eq_counts (keys : List OwnedAs) :
    keys.length = keys.count .consequence + keys.count .alternative + keys.count .body +
      keys.countP OwnedAs.isHandler + keys.count .final := by
  induction keys with
  | nil => rfl
  | cons k rest ih =>
    rw [List.length_cons, ih]
    cases k <;> simp [List.countP_cons, OwnedAs.isHandler] <;> omega

/-- The two branches of a conditional are two different blocks. -/
theorem subperm_branches :
    ((owned? .consequence owned).toList ++ (owned? .alternative owned).toList).Subperm
      (owned.map Prod.snd) := by
  refine ((sublist_owned? owned _).append (sublist_owned? owned _)).subperm.trans ?_
  rw [← List.map_append]
  apply subperm_map
  apply subperm_filter
  intro o ho
  have : o.1 = .alternative := by simpa using ho
  simp [this]

/-- The body of a `try`, its handlers and its `finally` are different blocks. -/
theorem subperm_try :
    ((owned? .body owned).toList ++ ((handlers owned).map CatchClause.body ++
      (owned? .final owned).toList)).Subperm (owned.map Prod.snd) := by
  have htail : ((handlers owned).map CatchClause.body ++ (owned? .final owned).toList).Subperm
      ((owned.filter fun o => !decide (o.1 = .body)).map Prod.snd) := by
    rw [map_body_handlers]
    refine ((List.Sublist.refl _).append (sublist_owned? owned _)).subperm.trans ?_
    rw [← List.map_append]
    apply subperm_map
    have hsub := subperm_filter (p := fun o => o.1.isHandler)
      (q := fun o : OwnedAs × BlockId => o.1 = .final)
      (owned.filter fun o => !decide (o.1 = .body)) fun o ho => by
        have : o.1 = .final := by simpa using ho
        simp [this, OwnedAs.isHandler]
    rw [List.filter_filter, List.filter_filter] at hsub
    have hhandler : ∀ o : OwnedAs × BlockId,
        (o.1.isHandler && !decide (o.1 = .body)) = o.1.isHandler := by
      rintro ⟨k, id⟩
      cases k <;> rfl
    have hfinal : ∀ o : OwnedAs × BlockId,
        (decide (o.1 = .final) && !decide (o.1 = .body)) = decide (o.1 = .final) := by
      rintro ⟨k, id⟩
      cases k <;> rfl
    simpa only [hhandler, hfinal] using hsub
  refine ((sublist_owned? owned _).subperm.append htail).trans ?_
  rw [← List.map_append]
  apply subperm_map
  exact (List.filter_append_perm _ owned).subperm

end Owned

/-! ### The statement that owns them -/

/-- What the body of the tree is to the statement `outer`, when the tree is one of its handlers. -/
def clauseAs? (source : List Char) (outer : NodeKind) : Tree → Option OwnedAs
  | leaf .. => none
  | node kind e parts => if isClause outer kind then some (clauseAs source kind e parts) else none

/-- What the bodies of its handlers are to the statement `outer`. -/
def clausesAs (source : List Char) (outer : NodeKind) (parts : List (Role × Tree)) : List OwnedAs :=
  parts.filterMap fun p => clauseAs? source outer p.2

section Statement

variable {source : List Char} {kind : NodeKind} {e : Extent} {parts : List (Role × Tree)}
  {roles : List Role} {owned : List (OwnedAs × BlockId)}

theorem clauseAs?_eq_none {outer : NodeKind} (h : outer ≠ .tryStatement) (t : Tree) :
    clauseAs? source outer t = none := by
  cases t with
  | leaf => rfl
  | node kind e ps => simp [clauseAs?, isClause_eq_false h]

theorem clausesAs_eq_nil {outer : NodeKind} (h : outer ≠ .tryStatement)
    (parts : List (Role × Tree)) : clausesAs source outer parts = [] :=
  List.filterMap_eq_nil_iff.2 fun p _ => clauseAs?_eq_none h p.2

theorem clauseAs?_try {t : Tree} (h : t.isHandler = false) :
    clauseAs? source .tryStatement t = none := by
  cases t with
  | leaf => rfl
  | node kind e ps =>
    simp only [isHandler, isNode, Bool.or_eq_false_iff, beq_eq_false_iff_ne] at h
    simp [clauseAs?, isClause, h.1, h.2]

/-- A handler that is no `catch` is a `finally`. -/
theorem count_final_clausesAs (outer : NodeKind) (parts : List (Role × Tree)) :
    (clausesAs source outer parts).count .final ≤
      parts.countP fun p => p.2.isNode .finallyClause := by
  induction parts with
  | nil => exact Nat.le_refl 0
  | cons p rest ih =>
    obtain ⟨role, t⟩ := p
    have hcons : clausesAs source outer ((role, t) :: rest) =
        (clauseAs? source outer t).toList ++ clausesAs source outer rest := by
      cases h : clauseAs? source outer t <;> simp [clausesAs, h]
    have hfirst : (clauseAs? source outer t).toList.count .final ≤
        if t.isNode .finallyClause then 1 else 0 := by
      cases t with
      | leaf => exact Nat.le_refl 0
      | node kind e ps =>
        by_cases hfinal : kind = .finallyClause
        · simp only [clauseAs?, isNode, hfinal, beq_self_eq_true, if_true]
          split <;> simp [List.count_cons]
          split <;> omega
        · simp only [clauseAs?, clauseAs, hfinal, if_false]
          split <;> simp
    rw [hcons, List.count_append, List.countP_cons]
    dsimp only
    omega

theorem clausesAs_cons_none {outer : NodeKind} {t : Tree} (role : Role)
    (rest : List (Role × Tree)) (h : clauseAs? source outer t = none) :
    clausesAs source outer ((role, t) :: rest) = clausesAs source outer rest := by
  simp [clausesAs, h]

theorem ownedRoles?_eq_some (h : ownedRoles? source kind e parts = some roles) :
    (kind = .ifStatement ∧ roles = [.consequence, .alternative]) ∨
      ∃ body, part? .body parts = some body ∧ roles = [.body] ∧
        ((compoundKind? kind).isSome ∨ kind = .tryStatement) := by
  unfold ownedRoles? at h
  split at h
  · exact .inl ⟨rfl, by cases h; rfl⟩
  all_goals first
    | exact .inr ⟨_, ‹_›, by cases h; rfl, by simp [compoundKind?]⟩
    | (split at h
       · cases h
       · exact .inr ⟨_, ‹_›, by cases h; rfl, by simp [compoundKind?]⟩)
    | cases h

theorem childBlocks_conditional_statementOf
    (h : ∀ body id, part? .body parts = some body → owned? .body owned = some id → False) :
    (statementOf source kind e parts owned).childBlocks =
      (owned? .consequence owned).toList ++ (owned? .alternative owned).toList := by
  unfold statementOf
  split
  · next hbody hid => exact (h _ _ hbody hid).elim
  · rfl

theorem childBlocks_statementAround {body : Tree} {id : BlockId}
    (hid : owned? .body owned = some id) :
    (statementAround source kind e body id owned).childBlocks =
      if (compoundKind? kind).isSome then (owned? .body owned).toList
      else (owned? .body owned).toList ++ ((handlers owned).map CatchClause.body ++
        (owned? .final owned).toList) := by
  unfold statementAround
  dsimp only
  split
  · next compound hkind => simp [hkind, hid]
  · next hkind => simp [hkind, hid, TryStatement.blocks]

/-- A statement owns each of its blocks at most once. -/
theorem subperm_statementOf :
    (statementOf source kind e parts owned).childBlocks.Subperm (owned.map Prod.snd) := by
  by_cases h : ∃ body id, part? .body parts = some body ∧ owned? .body owned = some id
  · obtain ⟨body, id, hbody, hid⟩ := h
    have heq : statementOf source kind e parts owned =
        statementAround source kind e body id owned := by
      rw [statementOf, hbody, hid]
    rw [heq, childBlocks_statementAround hid]
    split
    · exact (List.sublist_append_left _ _).subperm.trans (subperm_try owned)
    · exact subperm_try owned
  · rw [childBlocks_conditional_statementOf fun body id hbody hid => h ⟨body, id, hbody, hid⟩]
    exact subperm_branches owned

theorem owned?_eq_none (h : OwnedAs.body ∉ owned.map Prod.fst) : owned? .body owned = none := by
  have hlen := length_owned? owned .body
  rw [List.count_eq_zero_of_not_mem h] at hlen
  exact Option.toList_eq_nil_iff.1 (List.length_eq_zero_iff.1 hlen)

theorem exists_owned? {as : OwnedAs} (h : as ∈ owned.map Prod.fst) :
    ∃ id, owned? as owned = some id := by
  have hlen := length_owned? owned as
  rw [Nat.min_eq_left (List.one_le_count_iff.2 h)] at hlen
  cases hid : owned? as owned with
  | none => rw [hid] at hlen; cases hlen
  | some id => exact ⟨id, rfl⟩

/-- A conditional owns both its branches. -/
theorem length_conditional (hkeys : (owned.map Prod.fst).Subperm [.consequence, .alternative]) :
    (statementOf source kind e parts owned).childBlocks.length = owned.length := by
  have hkind : ∀ k ∈ owned.map Prod.fst, k = .consequence ∨ k = .alternative := fun k hk => by
    simpa using hkeys.subset hk
  have hbranches : (statementOf source kind e parts owned).childBlocks =
      (owned? .consequence owned).toList ++ (owned? .alternative owned).toList := by
    apply childBlocks_conditional_statementOf
    intro body id _ hid
    have hnone : owned? .body owned = none := owned?_eq_none fun hk => by
      rcases hkind _ hk with h | h <;> cases h
    rw [hnone] at hid
    cases hid
  have hh : (owned.map Prod.fst).countP OwnedAs.isHandler = 0 := by
    rw [List.countP_eq_zero]
    intro k hk
    rcases hkind k hk with rfl | rfl <;> exact Bool.false_ne_true
  have hlength := length_eq_counts (owned.map Prod.fst)
  have hc : (owned.map Prod.fst).count .consequence ≤ 1 := by
    simpa using hkeys.count_le .consequence
  have ha : (owned.map Prod.fst).count .alternative ≤ 1 := by
    simpa using hkeys.count_le .alternative
  have hb : (owned.map Prod.fst).count .body = 0 := by simpa using hkeys.count_le .body
  have hf : (owned.map Prod.fst).count .final = 0 := by simpa using hkeys.count_le .final
  rw [hbranches, List.length_append, length_owned?, length_owned?]
  rw [List.length_map, hh, hb, hf] at hlength
  omega

/-- A loop owns its body. -/
theorem length_compound {body : Tree} (hpart : part? .body parts = some body)
    (hkind : (compoundKind? kind).isSome) (hkeys : (owned.map Prod.fst).Subperm [.body])
    (hbody : OwnedAs.body ∈ owned.map Prod.fst) :
    (statementOf source kind e parts owned).childBlocks.length = owned.length := by
  obtain ⟨id, hid⟩ := exists_owned? hbody
  have heq : statementOf source kind e parts owned =
      statementAround source kind e body id owned := by
    rw [statementOf, hpart, hid]
  have hpos := List.length_pos_of_mem hbody
  have hle := hkeys.length_le
  rw [List.length_map] at hpos hle
  rw [heq, childBlocks_statementAround hid, if_pos hkind, hid]
  exact Nat.le_antisymm hpos hle

/-- A `try` owns its body, its handlers and its only `finally`. -/
theorem length_try {body : Tree} (hpart : part? .body parts = some body)
    (hkeys : (owned.map Prod.fst).Subperm (.body :: clausesAs source .tryStatement parts))
    (hbody : OwnedAs.body ∈ owned.map Prod.fst)
    (hfinal : (clausesAs source .tryStatement parts).count .final ≤ 1) :
    (statementOf source .tryStatement e parts owned).childBlocks.length = owned.length := by
  have hclause : ∀ k ∈ clausesAs source .tryStatement parts, k.isHandler = true ∨ k = .final := by
    intro k hk
    obtain ⟨⟨role, t⟩, -, ht⟩ := List.mem_filterMap.1 hk
    cases t with
    | leaf => cases ht
    | node kind e ps =>
      simp only [clauseAs?, Option.ite_none_right_eq_some, Option.some.injEq] at ht
      obtain ⟨-, rfl⟩ := ht
      unfold clauseAs
      split
      · exact .inr rfl
      · exact .inl rfl
  have hcount : ∀ k : OwnedAs, k.isHandler = false → k ≠ .final →
      (clausesAs source .tryStatement parts).count k = 0 := by
    intro k hh hf
    apply List.count_eq_zero_of_not_mem
    intro hk
    rcases hclause k hk with h | h
    · exact Bool.false_ne_true (hh.symm.trans h)
    · exact hf h
  obtain ⟨id, hid⟩ := exists_owned? hbody
  have heq : statementOf source .tryStatement e parts owned =
      statementAround source .tryStatement e body id owned := by
    rw [statementOf, hpart, hid]
  have hlength := length_eq_counts (owned.map Prod.fst)
  have hc : (owned.map Prod.fst).count .consequence = 0 := by
    simpa [hcount .consequence rfl (by decide)] using hkeys.count_le .consequence
  have ha : (owned.map Prod.fst).count .alternative = 0 := by
    simpa [hcount .alternative rfl (by decide)] using hkeys.count_le .alternative
  have hb : (owned.map Prod.fst).count .body ≤ 1 := by
    simpa [hcount .body rfl (by decide)] using hkeys.count_le .body
  have hf : (owned.map Prod.fst).count .final ≤ 1 := by
    have := hkeys.count_le .final
    rw [List.count_cons_of_ne (by decide)] at this
    exact this.trans hfinal
  have hone := List.one_le_count_iff.2 hbody
  rw [heq, childBlocks_statementAround hid, if_neg (by decide), List.length_append,
    List.length_append, List.length_map, length_owned?, length_owned?, length_handlers]
  rw [List.length_map, hc, ha] at hlength
  omega

end Statement

end BranchExclusion.Java.Tree
