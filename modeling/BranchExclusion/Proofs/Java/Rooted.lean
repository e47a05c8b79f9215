import BranchExclusion.Proofs.Java.Lowered

/-!
# Bodies of a derived source are read again

A body that was read from a derived source can be laid out with new texts for the bodies nested in it.

* `Renewal.roots`: the statements of the root of a body, where those of a constructor may start with a
  call of another one;
* `Renewal.legibleBlocks_bodyIn`: the blocks of a body.
-/

namespace BranchExclusion

open Layout (Printer)

namespace Java

open BranchExclusion.Java.Tree (statements)

variable {source : List Char} {T called : Tree} {edits : List Edit} {p : Printer} {kind : NodeKind}
  {place : Place} {cs rest : List Chunk} {ps before behind qs : Parts}

/-! ### What stands before the first statement -/

/-- Braces, and comments before them, are passed over. -/
theorem startsWithConstructorCall_of_isEdge (hbefore : ∀ q ∈ before, IsEdge source q) (e e' : Extent) :
    (Tree.node kind e (before ++ (.part, .node .constructorCall e' qs) ::
      behind)).startsWithConstructorCall = true := by
  have hnone : before.find? (fun q => q.2.isNamed && !q.2.isComment) = none := by
    refine List.find?_eq_none.2 fun q hq => ?_
    rcases hbefore q hq with hbrace | ⟨hcomment, -⟩
    · obtain ⟨role, t⟩ := q
      cases t with
      | leaf kind e =>
        cases kind with
        | fixed | missing => exact Bool.false_ne_true
        | name | comment => cases hbrace
      | node kind e parts => cases hbrace
    · simp [hcomment]
  rw [Tree.startsWithConstructorCall, Tree.parts, List.find?_append, hnone, Option.none_or,
    List.find?_cons]
  rfl

/-- The statements of these parts are read as those of a root, when they are closed, and so are those of
the blocks that are added. -/
def Roots (source : List Char) (kind : NodeKind) (p : Printer) (prologue : Bool) (ps : Parts) : Prop :=
  ∀ body : Body, let r := (statements source ps).run body
    (∀ b : Block, b.statements = r.1 → b.prologue = prologue → (∀ s ∈ b.statements, s.Closed) →
      LegibleRoot kind p b) ∧ body.Adds (LegibleIfClosed p) r.2

section Renewed

variable (h : Renewal source T edits) (hp : p.nested = edits)
include h

/-- Of braces and the comments before them only the comments are statements. -/
theorem Renewal.exists_comments (hbefore : ∀ q ∈ before, IsEdge source q) (rest : Parts) (body : Body) :
    ∃ comments, (∀ s ∈ comments, s.isComment = true ∧ Legible p s) ∧
      (statements source (before ++ rest)).run body =
        (comments ++ ((statements source rest).run body).1, ((statements source rest).run body).2) := by
  induction before with
  | nil => exact ⟨[], List.forall_mem_nil _, rfl⟩
  | cons q before ih =>
    obtain ⟨hq, hbefore⟩ := List.forall_mem_cons.1 hbefore
    obtain ⟨comments, hcomments, hrun⟩ := ih hbefore
    obtain ⟨role, t⟩ := q
    rw [List.cons_append, statements]
    by_cases hbrace : t.isBrace = true
    · rw [if_pos hbrace]
      exact ⟨comments, hcomments, hrun⟩
    · rw [if_neg hbrace]
      obtain ⟨hcomment, hstated⟩ := hq.resolve_left hbrace
      cases hstated with
      | empty | node => cases hcomment
      | @comment t ht ht' =>
        have hlegible := (h.good_comment (p := p) ht ht' body).1 trivial
        rw [Tree.statement] at hlegible ⊢
        refine ⟨_ :: comments, List.forall_mem_cons.2 ⟨⟨rfl, hlegible⟩, hcomments⟩, ?_⟩
        rw [Tree.run_bind, Tree.run_pure, Tree.run_bind, hrun]
        rfl

include hp

/-- Statements, and braces around them. -/
theorem Renewal.adds_stated (hps : ∀ q ∈ ps, T.Has q.2)
    (hstated : ∀ q ∈ ps, q.2.isBrace = true ∨ q.2.Stated source) (body : Body) :
    let r := (statements source ps).run body
    (∀ s ∈ r.1, LegibleIfClosed p s) ∧ body.Adds (LegibleIfClosed p) r.2 :=
  Tree.adds_statements (fun q hq => (hstated q hq).imp_right (h.good_of_stated hp (hps q hq))) body

/-- Statements of a constructor behind a call of another one. -/
theorem Renewal.roots_of_call (hps : ∀ q ∈ before ++ (.part, called) :: behind, T.Has q.2)
    (hbefore : ∀ q ∈ before, IsEdge source q)
    (hbehind : ∀ q ∈ behind, q.2.isBrace = true ∨ q.2.Stated source)
    (hcalled : called = .node .constructorCall (extentOf place qs) qs) (hqs : qs ≠ [])
    (hcall : startsConstructorCall (viewOf cs) = true)
    (hinside : DerivedFrom source [.phrase (.inside .constructorCall)] (bareOf cs) qs rest) :
    Roots source .constructorBody p true (before ++ (.part, called) :: behind) := by
  intro body
  obtain ⟨comments, hcomments, hrun⟩ :=
    h.exists_comments (p := p) hbefore ((.part, called) :: behind) body
  obtain ⟨hrest, hadds⟩ := h.adds_stated hp (fun q hq => hps q (by simp [hq])) hbehind body
  have hhas := hps (.part, called) (by simp)
  subst hcalled
  have hcalls :
      (statements source ((.part, .node .constructorCall (extentOf place qs) qs) :: behind)).run body =
        (Tree.asText source (.node .constructorCall (extentOf place qs) qs) ::
          ((statements source behind).run body).1, ((statements source behind).run body).2) := by
    rw [statements, if_neg (by simp [Tree.isBrace]), Tree.statement]
    · rfl
    · decide
  rw [hrun, hcalls]
  refine ⟨fun b hb hprologue hclosed => .inr ⟨rfl, hprologue, comments, _, _, hb, hcomments, ?_,
    fun s hs => hrest s hs (hclosed s ?_)⟩, hadds⟩
  · intro text htext
    rw [Tree.verbatim, Tree.textIn, String.toList_ofList] at htext
    exact h.isCallText hcall hhas hqs hinside hp htext
  · rw [hb]
    simp [hs]

/-- **The statements of a body are read.** -/
theorem Renewal.roots (hkind : kind.isBraced = true)
    (hinside : DerivedFrom source [.phrase (.inside kind)] (bareOf cs) ps rest)
    (hT : T = .node kind (extentOf place ps) ps) :
    Roots source kind p T.startsWithConstructorCall ps := by
  have hps : ∀ q ∈ ps, T.Has q.2 := fun q hq => hT ▸ .part hq (.refl q.2)
  have hplain (hstated : ∀ q ∈ ps, q.2.isBrace = true ∨ q.2.Stated source) :
      Roots source kind p T.startsWithConstructorCall ps := by
    intro body
    obtain ⟨hstatements, hadds⟩ := h.adds_stated hp hps hstated body
    exact ⟨fun b hb _ hclosed => .inl fun s hs => hstatements s (hb ▸ hs) (hclosed s hs), hadds⟩
  cases kind with
  | block => exact hplain hinside.forall_block
  | constructorBody =>
    rcases hinside.constructor_cases with hstated |
      ⟨before, place', qs, behind, cs', mid, rfl, hcall, hqs, hinside', hbefore, hbehind⟩
    · exact hplain hstated
    · rw [hT, startsWithConstructorCall_of_isEdge hbefore]
      exact h.roots_of_call hp hps hbefore hbehind rfl hqs hcall hinside'
  | _ => cases hkind

/-- **The blocks of a body** have statements that are read, when they are closed. -/
theorem Renewal.legibleBlocks_bodyIn (hkind : kind.isBraced = true)
    (hinside : DerivedFrom source [.phrase (.inside kind)] (bareOf cs) ps rest)
    (hT : T = .node kind (extentOf place ps) ps) (hclosed : (T.bodyIn source).Closed) :
    LegibleBlocks kind p (T.bodyIn source) := by
  have hT' : T.parts = ps := by rw [hT]; rfl
  obtain ⟨hroot, new, hnew, hnew'⟩ := h.roots hp hkind hinside hT (Body.ofRoot T.root)
  have hblocks := Tree.blocks_bodyIn source T (hT' ▸ hnew)
  have hget {id : BlockId} {b : Block} (hb : (T.bodyIn source).block id = .ok b) :
      (T.bodyIn source).blocks.toList[id]? = some b := by
    rw [Array.getElem?_toList]
    exact Body.block_eq_ok.1 hb
  constructor
  · intro b hb
    have hfirst := hget hb
    have hall := hclosed b (List.mem_of_getElem? hfirst)
    rw [hblocks, hT'] at hfirst
    cases hfirst
    exact hroot _ rfl rfl hall
  · intro id b hid hb s hs
    have hmem := hget hb
    have hall := hclosed b (List.mem_of_getElem? hmem)
    rw [hblocks] at hmem
    obtain ⟨n, rfl⟩ := Nat.exists_eq_succ_of_ne_zero hid
    exact hnew' b (List.mem_of_getElem? hmem) s hs (hall s hs)

end Renewed

end Java

end BranchExclusion
