import BranchExclusion.Proofs.Body.Growth
import BranchExclusion.Proofs.Java.Kept
import BranchExclusion.Proofs.Java.Owned

/-!
# The bodies of trees

* `Tree.OwnsBlocks`: what the blocks of a statement add to a body, and what they are to it;
* `Tree.Lowers`: what a statement adds to a body, and the source text that it keeps;
* `Tree.lowers`: every tree is lowered in this way;
* `Tree.exists_fresh_bodyIn`: the blocks of a body that was read from a tree.
-/

namespace BranchExclusion.Java.Tree

open BranchExclusion.Body (Grows Fresh)

/-! ### Lowering -/

theorem run_bind {α β : Type} (x : StateM Body α) (f : α → StateM Body β) (body : Body) :
    (x >>= f).run body = (f (x.run body).1).run (x.run body).2 := rfl

theorem run_pure {α : Type} (a : α) (body : Body) :
    (pure a : StateM Body α).run body = (a, body) := rfl

/-- The statement of the tree owns all blocks that it adds, when the tree is well formed, and every
tree that is kept becomes the text of one statement. -/
def Lowers (source : List Char) (t : Tree) : Prop :=
  ∀ body : Body, let r := (t.statement source).run body
    Grows t.WellFormed body r.1.childBlocks r.1.verbatims
      ((t.kept source).map (verbatim source)) r.2

/-- The blocks that are owned by the statement `outer` are all that is added, and each is the first
of its role or that of a handler. -/
structure OwnsBlocks (source : List Char) (outer : NodeKind) (clause : Option OwnedAs)
    (roles : List Role) (parts : List (Role × Tree)) (body : Body)
    (r : List (OwnedAs × BlockId) × Body) : Prop where
  grows : Grows (∀ p ∈ parts, p.2.WellFormed) body (r.1.map Prod.snd) []
    ((keptOfOwned source outer roles parts).map (verbatim source)) r.2
  keys : (r.1.map Prod.fst).Subperm
    (roles.map (fun role => clause.getD (ownedAs role)) ++ clausesAs source outer parts)
  body : (∀ p ∈ parts, p.1 = .body → clauseAs? source outer p.2 = none) → .body ∈ roles →
    (part? .body parts).isSome → clause.getD .body ∈ r.1.map Prod.fst

section Lowering

variable {source : List Char}

theorem verbatims_statementOf (kind : NodeKind) (e : Extent) (parts : List (Role × Tree))
    (owned : List (OwnedAs × BlockId)) :
    (statementOf source kind e parts owned).verbatims = [] := by
  unfold statementOf statementAround
  split
  · dsimp only
    split <;> rfl
  · rfl

theorem grows_blockOf {exact : Prop} {body after : Body} {s : Statement} {kept : List Verbatim}
    (t : Tree) (h : Grows exact body s.childBlocks s.verbatims kept after) :
    Grows exact body [((blockOf t s).run after).1] [] kept ((blockOf t s).run after).2 := by
  by_cases hs : ∃ id, s = .block id
  · obtain ⟨id, rfl⟩ := hs
    exact h
  · have hrun : (blockOf t s).run after =
        (after.size, after.alloc (.unbraced s t.extent.span t.hasFault)) := by
      cases s with
      | block id => exact absurd ⟨id, rfl⟩ hs
      | _ => rfl
    rw [hrun]
    apply Grows.alloc
    simpa [Block.childBlocks, Block.verbatims, Block.unbraced] using h

theorem grows_statements (parts : List (Role × Tree)) (h : ∀ p ∈ parts, Lowers source p.2)
    (body : Body) : let r := (statements source parts).run body
    Grows (∀ p ∈ parts, p.2.WellFormed) body (r.1.flatMap Statement.childBlocks)
      (r.1.flatMap Statement.verbatims) ((keptOfStatements source parts).map (verbatim source))
      r.2 := by
  induction parts generalizing body with
  | nil =>
    rw [statements, keptOfStatements]
    exact .refl _ body []
  | cons p rest ih =>
    obtain ⟨role, t⟩ := p
    have hrest : ∀ p ∈ rest, Lowers source p.2 := fun p hp => h p (List.mem_cons_of_mem _ hp)
    rw [statements, keptOfStatements]
    by_cases hbrace : t.isBrace = true
    · rw [if_pos hbrace, if_pos hbrace]
      exact (ih hrest body).mono fun hw p hp => hw p (List.mem_cons_of_mem _ hp)
    · rw [if_neg hbrace, if_neg hbrace, List.map_append]
      have hfirst := h _ (List.mem_cons_self ..) body
      have hlater := ih hrest ((t.statement source).run body).2
      exact (hfirst.mono fun hw => hw _ (List.mem_cons_self ..)).trans
        (hlater.mono fun hw p hp => hw p (List.mem_cons_of_mem _ hp))

theorem grows_lastStatement (parts : List (Role × Tree)) (h : ∀ p ∈ parts, Lowers source p.2)
    (body : Body) : let r := (lastStatement source parts).run body
    r.1.isSome = parts.any (fun p => p.2.isNamed) ∧
      Grows (∀ p ∈ parts, p.2.WellFormed) body (r.1.toList.flatMap Statement.childBlocks)
        (r.1.toList.flatMap Statement.verbatims)
        ((keptOfLast source parts).map (verbatim source)) r.2 := by
  induction parts with
  | nil =>
    rw [lastStatement, keptOfLast]
    exact ⟨rfl, .refl _ body []⟩
  | cons p rest ih =>
    obtain ⟨role, t⟩ := p
    rw [lastStatement, keptOfLast, List.any_cons]
    by_cases hnamed : rest.any (fun p => p.2.isNamed) = true
    · obtain ⟨hsome, hgrows⟩ := ih fun p hp => h p (List.mem_cons_of_mem _ hp)
      rw [if_pos hnamed, if_pos hnamed]
      exact ⟨by rw [hsome, hnamed, Bool.or_true],
        hgrows.mono fun hw p hp => hw p (List.mem_cons_of_mem _ hp)⟩
    · rw [if_neg hnamed, if_neg hnamed]
      by_cases ht : t.isNamed = true
      · rw [if_pos ht, if_pos ht, ht]
        refine ⟨rfl, ?_⟩
        have hlast : Grows (∀ p ∈ (role, t) :: rest, p.2.WellFormed) body _ _ _ _ :=
          (h _ (List.mem_cons_self ..) body).mono fun hw => hw _ (List.mem_cons_self ..)
        simp only [run_bind, run_pure, Option.toList_some, List.flatMap_singleton]
        exact hlast
      · rw [if_neg ht, if_neg ht]
        refine ⟨?_, .refl _ body []⟩
        show false = _
        simp [ht, hnamed]

/-- The first part takes its role when it is one of the roles that are left. -/
theorem subperm_keys_cons {roles : List Role} {role : Role} {keys rest : List OwnedAs}
    (f : Role → OwnedAs) (hrole : role ∈ roles)
    (h : keys.Subperm ((roles.erase role).map f ++ rest)) :
    (f role :: keys).Subperm (roles.map f ++ rest) := by
  have hperm : (f role :: (roles.erase role).map f ++ rest).Perm (roles.map f ++ rest) :=
    (((List.perm_cons_erase hrole).map f).symm).append_right rest
  exact ((List.subperm_cons _).2 h).trans hperm.subperm

namespace OwnsBlocks

variable {outer : NodeKind} {clause : Option OwnedAs} {roles : List Role} {role : Role} {t : Tree}
  {rest : List (Role × Tree)} {body : Body} {r : List (OwnedAs × BlockId) × Body}

/-- One more part, which becomes a block. -/
theorem cons {after : Body} {id : BlockId} (hclause : clauseAs? source outer t = none)
    (hrole : role ∈ roles)
    (hkept : keptOfOwned source outer roles ((role, t) :: rest) =
      t.kept source ++ keptOfOwned source outer (roles.erase role) rest)
    (hfirst : Grows t.WellFormed body [id] [] ((t.kept source).map (verbatim source)) after)
    (htail : OwnsBlocks source outer clause (roles.erase role) rest after r) :
    OwnsBlocks source outer clause roles ((role, t) :: rest) body
      ((clause.getD (ownedAs role), id) :: r.1, r.2) where
  grows := by
    rw [hkept, List.map_append]
    exact (hfirst.mono fun hw => hw _ (List.mem_cons_self ..)).trans
      (htail.grows.mono fun hw p hp => hw p (List.mem_cons_of_mem _ hp))
  keys := by
    rw [clausesAs_cons_none role rest hclause]
    exact subperm_keys_cons (fun role => clause.getD (ownedAs role)) hrole htail.keys
  body hfree hmem hpart := by
    by_cases hb : role = .body
    · rw [hb]
      exact List.mem_cons_self ..
    · rw [part?_cons, if_neg hb] at hpart
      exact List.mem_cons_of_mem _ (htail.body (fun p hp => hfree p (List.mem_cons_of_mem _ hp))
        ((List.mem_erase_of_ne (Ne.symm hb)).2 hmem) hpart)

/-- One more part, which is passed over. -/
theorem skip {left : List Role} (hclause : clauseAs? source outer t = none)
    (hleft : left = roles ∨ left = roles.erase role) (hrole : .body ∈ roles → role ≠ .body)
    (hkept : keptOfOwned source outer roles ((role, t) :: rest) =
      keptOfOwned source outer left rest)
    (htail : OwnsBlocks source outer clause left rest body r) :
    OwnsBlocks source outer clause roles ((role, t) :: rest) body r where
  grows := by
    rw [hkept]
    exact htail.grows.mono fun hw p hp => hw p (List.mem_cons_of_mem _ hp)
  keys := by
    rw [clausesAs_cons_none role rest hclause]
    have hsub : left.Sublist roles := by
      rcases hleft with rfl | rfl
      · exact .refl _
      · exact List.erase_sublist
    exact htail.keys.trans (((hsub.map _).append_right _).subperm)
  body hfree hmem hpart := by
    have hb := hrole hmem
    rw [part?_cons, if_neg hb] at hpart
    have hmem' : Role.body ∈ left := by
      rcases hleft with rfl | rfl
      · exact hmem
      · exact (List.mem_erase_of_ne (Ne.symm hb)).2 hmem
    exact htail.body (fun p hp => hfree p (List.mem_cons_of_mem _ hp)) hmem' hpart

/-- One more part, which is a handler of a `try`. -/
theorem handler {kind : NodeKind} {e : Extent} {ps : List (Role × Tree)}
    {here : List (OwnedAs × BlockId) × Body} (hkind : isClause outer kind = true)
    (hhere : OwnsBlocks source kind (some (clauseAs source kind e ps)) [.body] ps body here)
    (htail : OwnsBlocks source outer clause roles rest here.2 r) :
    OwnsBlocks source outer clause roles ((role, node kind e ps) :: rest) body
      (here.1 ++ r.1, r.2) where
  grows := by
    rw [keptOfOwned, if_pos hkind, List.map_append, List.map_append]
    have hfirst : Grows (∀ p ∈ (role, node kind e ps) :: rest, p.2.WellFormed) body _ _ _ _ :=
      hhere.grows.mono fun hw => (hw _ (List.mem_cons_self ..)).parts
    exact hfirst.trans (htail.grows.mono fun hw p hp => hw p (List.mem_cons_of_mem _ hp))
  keys := by
    have hnone : clausesAs source kind ps = [] := clausesAs_eq_nil (ne_try_of_isClause hkind) ps
    have hkeys : (here.1.map Prod.fst).Subperm
        ([clauseAs source kind e ps] ++ clausesAs source kind ps) := hhere.keys
    rw [hnone, List.append_nil] at hkeys
    have hcons : clausesAs source outer ((role, node kind e ps) :: rest) =
        clauseAs source kind e ps :: clausesAs source outer rest := by
      simp [clausesAs, clauseAs?, hkind]
    rw [hcons, List.map_append]
    exact (hkeys.append htail.keys).trans (List.perm_append_comm_assoc ..).subperm
  body hfree hmem hpart := by
    have hb : role ≠ .body := fun hb => by
      have := hfree _ (List.mem_cons_self ..) hb
      simp [clauseAs?, hkind] at this
    rw [part?_cons, if_neg hb] at hpart
    rw [List.map_append]
    exact List.mem_append_right _
      (htail.body (fun p hp => hfree p (List.mem_cons_of_mem _ hp)) hmem hpart)

end OwnsBlocks

theorem ownsBlocks {outer : NodeKind} (parts : List (Role × Tree))
    (h : ∀ p ∈ parts, Lowers source p.2)
    (hclause : ∀ role kind e ps, (role, node kind e ps) ∈ parts → isClause outer kind = true →
      ∀ clause body, OwnsBlocks source kind (some clause) [.body] ps body
        ((ownedBlocks source kind (some clause) [.body] ps).run body))
    (clause : Option OwnedAs) (roles : List Role) (body : Body) :
    OwnsBlocks source outer clause roles parts body
      ((ownedBlocks source outer clause roles parts).run body) := by
  induction parts generalizing roles body with
  | nil =>
    rw [ownedBlocks]
    exact {
      grows := by rw [keptOfOwned]; exact .refl _ body []
      keys := List.nil_subperm
      body := fun _ _ h => by cases h }
  | cons p rest ih =>
    have hrest := ih (fun p hp => h p (List.mem_cons_of_mem _ hp))
      fun role kind e ps hp => hclause role kind e ps (List.mem_cons_of_mem _ hp)
    obtain ⟨role, t⟩ := p
    have ht : Lowers source t := h _ (List.mem_cons_self ..)
    cases t with
    | leaf kind e =>
      rw [ownedBlocks]
      by_cases hrole : role ∈ roles ∧ (role = .body ∨ kind ≠ .fixed ";")
      · rw [if_pos hrole]
        simp only [run_bind, run_pure]
        exact .cons rfl hrole.1 (by rw [keptOfOwned, if_pos hrole])
          (grows_blockOf _ (ht body)) (hrest _ _)
      · rw [if_neg hrole]
        refine .skip rfl (.inr rfl) ?_ (by rw [keptOfOwned, if_neg hrole]) (hrest _ body)
        exact fun hmem hb => hrole ⟨hb ▸ hmem, .inl hb⟩
    | node kind e ps =>
      rw [ownedBlocks]
      by_cases hkind : isClause outer kind = true
      · rw [if_pos hkind]
        simp only [run_bind, run_pure]
        exact .handler hkind (hclause role kind e ps (List.mem_cons_self ..) hkind _ body)
          (hrest roles _)
      have hnone : clauseAs? source outer (node kind e ps) = none := by simp [clauseAs?, hkind]
      rw [if_neg hkind]
      by_cases hrole : role ∈ roles
      · rw [if_pos hrole]
        simp only [run_bind, run_pure]
        exact .cons hnone hrole (by rw [keptOfOwned, if_neg hkind, if_pos hrole])
          (grows_blockOf _ (ht body)) (hrest _ _)
      · rw [if_neg hrole]
        refine .skip hnone (.inl rfl) ?_ (by rw [keptOfOwned, if_neg hkind, if_neg hrole])
          (hrest _ body)
        exact fun hmem hb => hrole (hb ▸ hmem)

theorem ownsBlocks_clause {kind : NodeKind} {ps : List (Role × Tree)}
    (h : ∀ q ∈ ps, Lowers source q.2) (hkind : kind ≠ .tryStatement) (clause : Option OwnedAs)
    (roles : List Role) (body : Body) :
    OwnsBlocks source kind clause roles ps body
      ((ownedBlocks source kind clause roles ps).run body) := by
  refine ownsBlocks ps h ?_ clause roles body
  intro role kind' e ps' _ hclause
  rw [isClause_eq_false hkind] at hclause
  cases hclause

/-- In a well-formed tree the statement owns the block of every part that has one. -/
theorem length_childBlocks {kind : NodeKind} {e : Extent} {parts : List (Role × Tree)}
    {roles : List Role} {body : Body} {r : List (OwnedAs × BlockId) × Body}
    (hroles : ownedRoles? source kind e parts = some roles)
    (h : OwnsBlocks source kind none roles parts body r) (hw : (node kind e parts).WellFormed) :
    (statementOf source kind e parts r.1).childBlocks.length = r.1.length := by
  obtain ⟨-, hkeys, hbody⟩ := h
  rcases ownedRoles?_eq_some hroles with ⟨rfl, rfl⟩ | ⟨b, hpart, rfl, hkind | rfl⟩
  · rw [clausesAs_eq_nil (by decide)] at hkeys
    exact length_conditional hkeys
  · have hne : kind ≠ .tryStatement := by
      rintro rfl
      exact absurd hkind (by decide)
    rw [clausesAs_eq_nil hne] at hkeys
    refine length_compound hpart hkind hkeys ?_
    exact hbody (fun p _ _ => clauseAs?_eq_none hne p.2) (List.mem_singleton.2 rfl)
      (by simp [hpart])
  · cases hw with
    | node _ _ htry _ =>
      have hshaped := htry rfl
      refine length_try hpart hkeys ?_ ((count_final_clausesAs _ _).trans hshaped.one_finally)
      exact hbody (fun p hp hb => clauseAs?_try (hshaped.body p hp hb)) (List.mem_singleton.2 rfl)
        (by simp [hpart])

theorem isNamed_of_label? {parts : List (Role × Tree)} (h : (label? parts).isSome) :
    parts.any (fun p => p.2.isNamed) = true := by
  unfold label? at h
  split at h
  · next label _ _ hfilter =>
    have hmem : label ∈ parts.filter fun p => p.2.isNamed := by
      rw [hfilter]
      exact List.mem_cons_self ..
    obtain ⟨hmem, hnamed⟩ := List.mem_filter.1 hmem
    exact List.any_eq_true.2 ⟨label, hmem, hnamed⟩
  · cases h

/-- A statement owns what it adds to a body, whatever the tree. -/
theorem lowers (t : Tree) : Lowers source t := by
  induction t using Tree.induction with
  | hleaf kind e =>
    intro body
    cases kind with
    | comment =>
      rw [statement, kept]
      exact .refl _ body []
    | name | fixed | missing =>
      rw [statement, kept]
      · exact .refl _ body _
      all_goals simp
  | hnode kind e parts ih ih' =>
    intro body
    by_cases hblock : kind = .block
    · subst hblock
      rw [statement, kept, if_pos rfl]
      exact ((grows_statements parts ih body).mono fun hw => hw.parts).alloc
    rw [statement, kept, if_neg hblock]
    swap
    · exact hblock
    cases hexit : exitKind? kind with
    | some exit =>
      rw [Option.isSome_some, if_pos rfl]
      exact .refl _ body _
    | none =>
      rw [Option.isSome_none, if_neg Bool.false_ne_true]
      cases hroles : ownedRoles? source kind e parts with
      | some roles =>
        have howns : OwnsBlocks source kind none roles parts body _ := ownsBlocks parts ih
          (fun role kind' e' ps hp hclause clause => ownsBlocks_clause (ih' _ hp)
            (ne_try_of_isClause hclause) (some clause) [.body]) none roles body
        simp only [run_bind, run_pure, verbatims_statementOf]
        refine (howns.grows.mono fun hw => hw.parts).subperm subperm_statementOf fun hw => ?_
        rw [length_childBlocks hroles howns hw, List.length_map]
      | none =>
        by_cases hlabel : kind = .labeledStatement ∧ (label? parts).isSome
        · obtain ⟨label, hl⟩ := Option.isSome_iff_exists.1 hlabel.2
          obtain ⟨hsome, hgrows⟩ := grows_lastStatement parts ih body
          rw [isNamed_of_label? hlabel.2] at hsome
          obtain ⟨s, hs⟩ := Option.isSome_iff_exists.1 hsome
          simp only [hlabel.1, hl, if_true, Option.isSome_some, and_self, run_bind, run_pure, hs,
            Option.getD_some]
          rw [hs] at hgrows
          have hparts : (node .labeledStatement e parts).WellFormed →
              ∀ p ∈ parts, p.2.WellFormed := WellFormed.parts
          simpa [Statement.verbatims] using hgrows.mono hparts
        · have hnone : (if kind = .labeledStatement then label? parts else none) = none := by
            by_cases hk : kind = .labeledStatement
            · simpa [hk] using hlabel
            · rw [if_neg hk]
          rw [if_neg hlabel, hnone]
          exact .refl _ body _

/-- What the blocks of a statement add to a body, whatever its parts. -/
theorem ownsBlocks_parts (kind : NodeKind) (parts : List (Role × Tree)) (roles : List Role)
    (body : Body) : OwnsBlocks source kind none roles parts body
      ((ownedBlocks source kind none roles parts).run body) :=
  ownsBlocks parts (fun p _ => lowers p.2) (fun _ _ _ _ _ hclause clause => ownsBlocks_clause
    (fun q _ => lowers q.2) (ne_try_of_isClause hclause) (some clause) [.body]) none roles body

/-- The root of the body of a tree, without its statements. -/
def root (t : Tree) : Block := ⟨[], t.extent.span, true, t.hasFault, t.startsWithConstructorCall⟩

/-- The blocks of a body are its root and those that its statements add. -/
theorem blocks_bodyIn (source : List Char) (t : Tree) {new : List Block}
    (hnew : ((statements source t.parts).run (Body.ofRoot t.root)).2.blocks.toList =
      (Body.ofRoot t.root).blocks.toList ++ new) : (t.bodyIn source).blocks.toList =
        { t.root with
          statements := ((statements source t.parts).run (Body.ofRoot t.root)).1 } :: new := by
  have hset : (t.bodyIn source).blocks.toList =
      ((statements source t.parts).run (Body.ofRoot t.root)).2.blocks.toList.set Body.root
        { t.root with
          statements := ((statements source t.parts).run (Body.ofRoot t.root)).1 } :=
    Array.toList_setIfInBounds ..
  rw [hset, hnew]
  rfl

/-- The blocks of a body that was read from a tree: its root, and the blocks of its statements. -/
theorem exists_fresh_bodyIn (source : List Char) (t : Tree) : ∃ b new,
    (t.bodyIn source).blocks.toList = b :: new ∧
      Fresh t.WellFormed 1 new b.childBlocks b.verbatims
        ((keptOfStatements source t.parts).map (verbatim source)) := by
  let r := (statements source t.parts).run (Body.ofRoot t.root)
  have hgrows : Grows (∀ p ∈ t.parts, p.2.WellFormed) (Body.ofRoot t.root) _ _ _ r.2 :=
    grows_statements t.parts (fun p _ => lowers p.2) (Body.ofRoot t.root)
  obtain ⟨new, hnew, hfresh⟩ := hgrows
  exact ⟨_, new, blocks_bodyIn source t hnew, hfresh.mono WellFormed.parts⟩

end Lowering

end BranchExclusion.Java.Tree
