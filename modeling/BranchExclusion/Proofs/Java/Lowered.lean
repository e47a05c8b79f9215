import BranchExclusion.Proofs.Java.Conditions

/-!
# Statements of a derived source are read again

A body that was read from a derived source consists of statements that are read again when they are laid
out, whatever new texts the bodies nested in them have.

* `Statement.Closed`: the text of a statement that has a brace behind it ends with no line comment;
* `Body.Adds`: the blocks that are added to a body, and their statements;
* `Renewal.good_of_stated`: a statement of the source, and the blocks that it owns.
-/

namespace BranchExclusion

open Layout (Printer exprText)
open Text (slice)

/-- The text of the statement before a brace or a parenthesis does not end with a line comment, and its
label stands before a statement. -/
def Statement.Closed : Statement → Prop
  | .conditional c => Java.runsOn (exprText c.condition) = false
  | .compound c => Java.runsOn c.header.toList = false
  | .tryStatement t =>
    Java.runsOn t.header.toList = false ∧ ∀ c ∈ t.catches, Java.runsOn c.header.toList = false
  | .labeled _ body _ => body.isComment = false ∧ body.Closed
  | _ => True

instance Statement.decidableClosed : (s : Statement) → Decidable s.Closed
  | .conditional c => inferInstanceAs (Decidable (Java.runsOn (exprText c.condition) = false))
  | .compound c => inferInstanceAs (Decidable (Java.runsOn c.header.toList = false))
  | .tryStatement t => inferInstanceAs (Decidable (Java.runsOn t.header.toList = false ∧
      ∀ c ∈ t.catches, Java.runsOn c.header.toList = false))
  | .labeled _ body _ =>
    have := decidableClosed body
    inferInstanceAs (Decidable (body.isComment = false ∧ body.Closed))
  | .block _ | .exit .. | .other _ | .comment .. | .declaration .. | .assignment .. | .assertion _ =>
    .isTrue trivial

/-- All statements of the body are closed. -/
def Body.Closed (body : Body) : Prop :=
  ∀ b ∈ body.blocks.toList, ∀ s ∈ b.statements, s.Closed

instance (body : Body) : Decidable body.Closed :=
  inferInstanceAs (Decidable (∀ b ∈ body.blocks.toList, ∀ s ∈ b.statements, s.Closed))

/-! ### Blocks that are added -/

/-- `after` is `body` with blocks added, all of whose statements are such. -/
def Body.Adds (Q : Statement → Prop) (body after : Body) : Prop :=
  ∃ new, after.blocks.toList = body.blocks.toList ++ new ∧ ∀ b ∈ new, ∀ s ∈ b.statements, Q s

namespace Body.Adds

variable {Q : Statement → Prop} {body after last : Body} {b : Block}

theorem refl (body : Body) : body.Adds Q body := ⟨[], by simp, List.forall_mem_nil _⟩

theorem trans (h : body.Adds Q after) (h' : after.Adds Q last) : body.Adds Q last := by
  obtain ⟨new, hnew, hall⟩ := h
  obtain ⟨new', hnew', hall'⟩ := h'
  exact ⟨new ++ new', by rw [hnew', hnew, List.append_assoc], List.forall_mem_append.2 ⟨hall, hall'⟩⟩

theorem alloc (h : body.Adds Q after) (hb : ∀ s ∈ b.statements, Q s) : body.Adds Q (after.alloc b) := by
  obtain ⟨new, hnew, hall⟩ := h
  refine ⟨new ++ [b], ?_, List.forall_mem_append.2 ⟨hall, List.forall_mem_singleton.2 hb⟩⟩
  rw [Body.alloc, Array.toList_push, hnew, List.append_assoc]

end Body.Adds

namespace Java

open BranchExclusion.Java.Tree (OwnedAs clauseAs conditionText isClause ownedBlocks ownedRoles? part?
  blockOf)

variable {source : List Char} {Q : Statement → Prop}

namespace Tree

/-- The statement of the tree is such, and so are those of the blocks that are added. -/
def Good (source : List Char) (Q : Statement → Prop) (t : Tree) : Prop :=
  ∀ body : Body, let r := (t.statement source).run body
    Q r.1 ∧ body.Adds Q r.2

theorem adds_blockOf {body after : Body} {s : Statement} (t : Tree) (hs : Q s)
    (h : body.Adds Q after) : body.Adds Q ((blockOf t s).run after).2 := by
  by_cases hblock : ∃ id, s = .block id
  · obtain ⟨id, rfl⟩ := hblock
    exact h
  · have hrun : (blockOf t s).run after =
        (after.size, after.alloc (.unbraced s t.extent.span t.hasFault)) := by
      cases s with
      | block id => exact absurd ⟨id, rfl⟩ hblock
      | _ => rfl
    rw [hrun]
    exact h.alloc (List.forall_mem_singleton.2 hs)

section Parts

variable {parts : List (Role × Tree)}

theorem adds_statements (h : ∀ p ∈ parts, p.2.isBrace = true ∨ Good source Q p.2) (body : Body) :
    let r := (statements source parts).run body
    (∀ s ∈ r.1, Q s) ∧ body.Adds Q r.2 := by
  induction parts generalizing body with
  | nil =>
    rw [statements]
    exact ⟨List.forall_mem_nil _, .refl body⟩
  | cons p rest ih =>
    obtain ⟨role, t⟩ := p
    obtain ⟨ht, h⟩ := List.forall_mem_cons.1 h
    rw [statements]
    by_cases hbrace : t.isBrace = true
    · rw [if_pos hbrace]
      exact ih h body
    · rw [if_neg hbrace]
      obtain ⟨hs, hadds⟩ := ht.resolve_left hbrace body
      obtain ⟨hrest, hadds'⟩ := ih h ((t.statement source).run body).2
      exact ⟨List.forall_mem_cons.2 ⟨hs, hrest⟩, hadds.trans hadds'⟩

theorem adds_lastStatement (h : ∀ p ∈ parts, p.2.isNamed = true → Good source Q p.2) (body : Body) :
    let r := (lastStatement source parts).run body
    (∀ s ∈ r.1, Q s) ∧ body.Adds Q r.2 := by
  induction parts with
  | nil =>
    rw [lastStatement]
    exact ⟨fun s hs => absurd hs (Option.not_mem_none s), .refl body⟩
  | cons p rest ih =>
    obtain ⟨role, t⟩ := p
    obtain ⟨ht, h⟩ := List.forall_mem_cons.1 h
    rw [lastStatement]
    by_cases hnamed : rest.any (fun p => p.2.isNamed) = true
    · rw [if_pos hnamed]
      exact ih h
    · rw [if_neg hnamed]
      by_cases hself : t.isNamed = true
      · rw [if_pos hself]
        obtain ⟨hs, hadds⟩ := ht hself body
        refine ⟨fun s hs' => ?_, hadds⟩
        cases hs'
        exact hs
      · rw [if_neg hself]
        exact ⟨fun s hs => absurd hs (Option.not_mem_none s), .refl body⟩

theorem adds_ownedBlocks {outer : NodeKind} (all : List Role)
    (h : ∀ p ∈ parts, p.1 ∈ all → Good source Q p.2)
    (hclause : ∀ role kind e ps, (role, node kind e ps) ∈ parts → isClause outer kind = true →
      ∀ clause body, Body.Adds Q body ((ownedBlocks source kind (some clause) [.body] ps).run body).2)
    (clause : Option OwnedAs) (roles : List Role) (hroles : ∀ role ∈ roles, role ∈ all) (body : Body) :
    body.Adds Q ((ownedBlocks source outer clause roles parts).run body).2 := by
  induction parts generalizing roles body with
  | nil =>
    rw [ownedBlocks]
    exact .refl body
  | cons p rest ih =>
    obtain ⟨role, t⟩ := p
    obtain ⟨ht, h⟩ := List.forall_mem_cons.1 h
    have hrest := ih h fun role kind e ps hp => hclause role kind e ps (List.mem_cons_of_mem _ hp)
    have herase : ∀ other ∈ roles.erase role, other ∈ all :=
      fun other hother => hroles other (List.mem_of_mem_erase hother)
    cases t with
    | leaf kind e =>
      rw [ownedBlocks]
      split
      · next hrole =>
        obtain ⟨hs, hadds⟩ := ht (hroles role hrole.1) body
        exact (adds_blockOf _ hs hadds).trans (hrest _ herase _)
      · exact hrest _ herase body
    | node kind e ps =>
      rw [ownedBlocks]
      by_cases hkind : isClause outer kind = true
      · rw [if_pos hkind]
        exact (hclause role kind e ps List.mem_cons_self hkind _ body).trans (hrest _ hroles _)
      · rw [if_neg hkind]
        split
        · next hrole =>
          obtain ⟨hs, hadds⟩ := ht (hroles role hrole) body
          exact (adds_blockOf _ hs hadds).trans (hrest _ herase _)
        · exact hrest _ hroles body

/-- A statement without handlers owns blocks of its parts only. -/
theorem adds_ownedBlocks_of_ne_try {outer : NodeKind} {roles : List Role}
    (houter : outer ≠ .tryStatement) (h : ∀ p ∈ parts, p.1 ∈ roles → Good source Q p.2)
    (clause : Option OwnedAs) (body : Body) :
    body.Adds Q ((ownedBlocks source outer clause roles parts).run body).2 := by
  refine adds_ownedBlocks roles h (fun role kind e ps _ hkind => ?_) clause roles
    (fun role hrole => hrole) body
  rw [isClause_eq_false houter] at hkind
  cases hkind

end Parts

end Tree

/-! ### The statements of a derived source -/

/-- The statement is read when its texts are closed. -/
def LegibleIfClosed (p : Printer) (s : Statement) : Prop := s.Closed → Legible p s

/-- The text of a token has the word of the token. -/
theorem words_of_mem_tokens {t : Token} (hs : Tidy source) (ht : t ∈ tokens source) :
    words (slice source t.extent.start.offset t.extent.stop.offset) = wordsOf [t] ∧
      Tidy (slice source t.extent.start.offset t.extent.stop.offset) := by
  obtain ⟨before, behind, hsplit⟩ := List.append_of_mem ht
  have hlo : Parted source before ([t] ++ behind) t.extent.start.offset := parted_start hsplit
  have hhi : Parted source (before ++ [t]) behind t.extent.stop.offset :=
    parted_stop (by rw [hsplit, List.append_assoc]; rfl)
  have hle := (start_lt_stop ht).le
  exact ⟨by rw [words_slice hs hlo.cut hhi.cut hle, hlo.tokensIn_eq hhi],
    tidy_slice hs hlo.cut hhi.cut hle⟩

/-- The statement of a semicolon. -/
theorem isStatement_semicolon {w : Word} (hw : w.is ";" = true) (hstray : w.isStray = false) :
    IsStatement [.word w] := by
  have htext := text_of_is hw
  have hsound : Sound [.word w] := by
    refine .word ?_ ?_ hstray .nil
    · simp [Word.opens, Word.is, htext, leftBrace]
    · simp [Word.closes, Word.is, htext, rightBrace]
  obtain ⟨behind, hsight⟩ : ∃ behind, sight [.word w] = ⟨w, false⟩ :: behind := ⟨_, sight_cons _ _⟩
  have hreads : Reads [.phrase (.statement .part)] ([.word w] ++ []) [] := by
    refine .to_phrase ?_
    show Reads (Phrase.expandStatement .part (sight ([.word w] ++ []))) _ _
    rw [List.append_nil, hsight, Phrase.expandStatement, if_pos hw]
    exact .token .nil
  refine isStatement_of_reads hsound (List.cons_ne_nil _ _) (fun x hs kind hx _ => .inl ?_) hreads
  rw [List.append_nil, hsight] at hx
  cases hx
  exact hw

/-- A statement is a label, a block, a conditional, a loop or a `try`, or it is kept as text. -/
theorem kind_of_statementKind? {kind : NodeKind} {x : Head} {hs : List Head}
    (h : Phrase.statementKind? x hs = some kind) : kind = .labeledStatement ∨ kind = .block ∨
      kind = .ifStatement ∨ (Tree.compoundKind? kind).isSome ∨ kind = .tryStatement ∨
        kind.isWhole = true := by
  rcases Phrase.statementKind?_cases h with ⟨rfl, -⟩ | rfl | hkeyword | ⟨lead, hdeclared⟩ | rfl
  · exact .inl rfl
  · exact .inr (.inl rfl)
  · have hall : ∀ k ∈ Phrase.keywordKinds, k = .labeledStatement ∨ k = .block ∨ k = .ifStatement ∨
        (Tree.compoundKind? k).isSome ∨ k = .tryStatement ∨ k.isWhole = true := by decide
    exact hall kind (Phrase.mem_of_keywordStatement? hkeyword)
  · have hall : ∀ k ∈ Phrase.declaredKinds, k.isWhole = true := by decide
    exact .inr (.inr (.inr (.inr (.inr (hall kind (Phrase.mem_of_declared? hdeclared))))))
  · exact .inr (.inr (.inr (.inr (.inr rfl))))

/-- The statement of a node that is kept as text. -/
theorem legible_asText {p : Printer} {u : Tree}
    (h : ∀ text, splice (slice source u.extent.start.offset u.extent.stop.offset)
      (p.inside u.extent.range) = .ok text → IsStatementText text) : Legible p (u.asText source) := by
  intro text htext
  rw [Tree.verbatim, Tree.textIn, String.toList_ofList] at htext
  exact h text htext

theorem shape_of_isWhole {kind : NodeKind} (hkind : kind.isWhole = true) (extent : Extent)
    (parts : Parts) :
    kind ≠ .block ∧ kind ≠ .labeledStatement ∧ ownedRoles? source kind extent parts = none := by
  cases kind <;> first
    | exact absurd hkind (by decide)
    | exact ⟨by decide, by decide, by simp [ownedRoles?]⟩

namespace Renewal

variable {T : Tree} {edits : List Edit} (h : Renewal source T edits) {p : Printer}
  (hp : p.nested = edits)
include h

theorem good_comment {t : Token} (ht : t ∈ tokens source) (hcomment : t.isComment = true) :
    Tree.Good source (LegibleIfClosed p) (.leaf .comment t.extent) := by
  intro body
  rw [Tree.statement]
  refine ⟨fun _ => ?_, .refl body⟩
  obtain ⟨hwords, -⟩ := words_of_mem_tokens h.tidy ht
  have hnone : wordsOf [t] = [] := wordsOf_comments (List.forall_mem_singleton.2 hcomment)
  show words (Tree.textIn source (.leaf .comment t.extent)).toList = []
  rw [Tree.textIn, String.toList_ofList]
  exact hwords.trans hnone

include hp in
theorem good_semicolon {t : Token} (ht : t ∈ tokens source) (hsemicolon : t.word.is ";" = true)
    (hu : T.Has (.leaf (.fixed t.text) t.extent)) :
    Tree.Good source (LegibleIfClosed p) (.leaf (.fixed t.text) t.extent) := by
  have htext : t.text = ";" := text_eq_of_is (by decide) hsemicolon
  have hinside : p.inside t.extent.range = [] := by
    rw [Printer.inside]
    split
    · rfl
    · rw [List.map_eq_nil_iff, List.filter_eq_nil_iff]
      intro e he hin
      rw [hp] at he
      have hfixed : (Tree.leaf (.fixed t.text) t.extent).isFixed leftBrace = false := by
        rw [htext]
        rfl
      obtain ⟨_, _, _, hhas, -⟩ := h.hosts_within hu hfixed he hin
      cases hhas with
      | part hp => cases hp
  intro body
  rw [Tree.statement]
  · refine ⟨fun _ => legible_asText fun text hsplice => ?_, .refl body⟩
    obtain ⟨hwords, htidy⟩ := words_of_mem_tokens h.tidy ht
    have hsplice : splice (slice source t.extent.start.offset t.extent.stop.offset)
      (p.inside t.extent.range) = .ok text := hsplice
    rw [hinside, splice_nil] at hsplice
    cases hsplice
    have hcomment : t.isComment = false := by
      obtain ⟨-, c, rest, behind, -, htoken, hsplit, -⟩ := exists_split_of_mem_tokensAt ht
      rw [htext] at htoken hsplit
      obtain rfl : c = ';' := (List.cons.inj hsplit).1
      have hkind : t.kind = .symbol := (congrArg Prod.fst htoken).symm
      rw [Token.isComment, hkind]
      rfl
    have hmem : t.word ∈ words source :=
      List.mem_map_of_mem (List.mem_filter.2 ⟨ht, by simp [hcomment]⟩)
    refine ⟨htidy, [.word t.word], ?_, isStatement_semicolon hsemicolon (h.tidy _ hmem)⟩
    rw [hwords, wordsOf, List.filter_cons_of_pos (by simp [hcomment])]
    rfl
  · intros
    contradiction

section Node

variable {kind : NodeKind} {place : Place} {x : Head} {hs : List Head} {cs rest : List Chunk}
  {ps : Parts} (hview : viewOf cs = x :: hs) (hx : x.is ";" = false)
  (hk : Phrase.statementKind? x hs = some kind) (hps : ps ≠ [])
  (hinside : DerivedFrom source [.phrase (.inside kind)] (bareOf cs) ps rest)
  (hu : T.Has (.node kind (extentOf place ps) ps))
include hview hx hk hps hinside hu

include hp in
theorem good_whole (hkind : kind.isWhole = true) :
    Tree.Good source (LegibleIfClosed p) (.node kind (extentOf place ps) ps) := by
  have hlegible : Legible p (Tree.asText source (.node kind (extentOf place ps) ps)) :=
    legible_asText fun text htext => h.isStatementText_whole hview hx hk hkind hu hps hinside hp htext
  obtain ⟨hblock, hlabel, hroles⟩ := shape_of_isWhole hkind (extentOf place ps) ps
  intro body
  rw [Tree.statement]
  swap
  · exact hblock
  cases hexit : Tree.exitKind? kind with
  | some exit => exact ⟨fun _ => hlegible, .refl body⟩
  | none =>
    rw [hroles, if_neg hlabel]
    exact ⟨fun _ => hlegible, .refl body⟩

end Node

end Renewal

/-! ### Statements that own blocks -/

section Owner

variable {p : Printer} {kind : NodeKind} {place : Place} {x : Head} {hs : List Head}
  {cs rest : List Chunk} {ps : Parts} (htidy : Tidy source) (hview : viewOf cs = x :: hs)
  (hk : Phrase.statementKind? x hs = some kind)
  (hinside : DerivedFrom source [.phrase (.inside kind)] (bareOf cs) ps rest)
  (hparts : ∀ q ∈ ps, q.2.Stated source → Tree.Good source (LegibleIfClosed p) q.2)

include hparts in
theorem good_block (hinside : DerivedFrom source [.phrase (.inside .block)] (bareOf cs) ps rest)
    (extent : Extent) : Tree.Good source (LegibleIfClosed p) (.node .block extent ps) := by
  intro body
  rw [Tree.statement]
  obtain ⟨hstatements, hadds⟩ := Tree.adds_statements
    (fun q hq => (hinside.forall_block q hq).imp_right (hparts q hq)) body
  exact ⟨fun _ => trivial, hadds.alloc hstatements⟩

include htidy hparts in
theorem good_conditional
    (hinside : DerivedFrom source [.phrase (.inside .ifStatement)] (bareOf cs) ps rest)
    (extent : Extent) : Tree.Good source (LegibleIfClosed p) (.node .ifStatement extent ps) := by
  intro body
  obtain ⟨hcondition, howned⟩ := exists_condition htidy hinside
  have howns : Tree.OwnsBlocks source .ifStatement none _ ps body _ :=
    Tree.ownsBlocks_parts .ifStatement ps [.consequence, .alternative] body
  have hkeys := howns.keys
  rw [Tree.clausesAs_eq_nil (by decide)] at hkeys
  have hadds : body.Adds (LegibleIfClosed p)
      ((ownedBlocks source .ifStatement none [.consequence, .alternative] ps).run body).2 :=
    Tree.adds_ownedBlocks_of_ne_try (by decide) (fun q hq hrole => hparts q hq
      (howned q hq (by simpa using hrole))) none body
  rw [Tree.statement]
  · refine ⟨?_, hadds⟩
    show LegibleIfClosed p (Tree.statementOf source .ifStatement extent ps _)
    rw [Tree.statementOf_of_none (Tree.owned?_eq_none fun hmem => ?_)]
    · exact hcondition
    · exact absurd (hkeys.subset hmem) (by decide)
  · intros
    contradiction

theorem legible_compound {header trailer : String} {kind : CompoundKind} {id : BlockId} {span : Span}
    (h : FramesStatement header.toList trailer.toList) : LegibleIfClosed p
      (.compound ⟨kind, header, id, if trailer.isEmpty then none else some trailer, span⟩) := by
  intro hclosed
  obtain ⟨hs, ts, ⟨hheader, htidy⟩, ⟨htrailer, htidy'⟩, hread⟩ := h
  have heq : (if trailer.isEmpty then none else some trailer).getD "" = trailer := by
    split
    · next hempty => exact (String.isEmpty_iff.1 hempty).symm
    · rfl
  refine ⟨hs, ts, ⟨hheader, htidy, hclosed⟩, ?_, ?_, hread⟩
  · rw [heq]
    exact htidy'
  · rw [heq]
    exact htrailer

/-- The statement of a node whose body has its block. -/
theorem exists_statementAround {b : Tree} (extent : Extent) (hpart : part? .body ps = some b)
    (hfree : ∀ q ∈ ps, q.1 = .body → Tree.clauseAs? source kind q.2 = none) (body : Body) :
    ∃ id, Tree.statementOf source kind extent ps
        ((ownedBlocks source kind none [.body] ps).run body).1 =
      Tree.statementAround source kind extent b id
        ((ownedBlocks source kind none [.body] ps).run body).1 := by
  have howns : Tree.OwnsBlocks source kind none [.body] ps body _ :=
    Tree.ownsBlocks_parts kind ps [.body] body
  have hmem : OwnedAs.body ∈ _ := howns.body hfree (List.mem_singleton_self _) (by rw [hpart]; rfl)
  obtain ⟨id, hid⟩ := Tree.exists_owned? hmem
  exact ⟨id, by rw [Tree.statementOf, hpart, hid]⟩

include htidy hview hk hinside hparts in
theorem good_compound (hkind : (Tree.compoundKind? kind).isSome)
    (hw : (Tree.node kind (extentOf place ps) ps).WellFormed) :
    Tree.Good source (LegibleIfClosed p) (.node kind (extentOf place ps) ps) := by
  obtain ⟨b, hb, hroles, hframes⟩ := exists_compound htidy hview hk hw hkind hinside
  obtain ⟨compound, hcompound⟩ := Option.isSome_iff_exists.1 hkind
  have hshape : kind ≠ .block ∧ Tree.exitKind? kind = none ∧ kind ≠ .tryStatement := by
    cases kind <;> first | exact absurd hkind (by decide) | exact ⟨by decide, rfl, by decide⟩
  obtain ⟨hblock, hexit, htry⟩ := hshape
  intro body
  have hadds : body.Adds (LegibleIfClosed p) ((ownedBlocks source kind none [.body] ps).run body).2 :=
    Tree.adds_ownedBlocks_of_ne_try htry (fun q hq hrole => hparts q hq (hb.stated_of_mem hq hrole))
      none body
  obtain ⟨id, hid⟩ := exists_statementAround (extentOf place ps) hb.part
    (fun q _ _ => Tree.clauseAs?_eq_none htry q.2) body
  rw [Tree.statement, hexit, hroles]
  swap
  · exact hblock
  refine ⟨?_, hadds⟩
  simp only [Tree.run_bind, Tree.run_pure]
  rw [hid, Tree.statementAround, hcompound]
  exact legible_compound hframes

/-- A label before a statement, or before a semicolon. -/
theorem good_labeled {T : Tree} {edits : List Edit} (h : Renewal source T edits) (hp : p.nested = edits)
    (hview : viewOf cs = x :: hs) (hk : Phrase.statementKind? x hs = some .labeledStatement)
    (hps : ps ≠ [])
    (hinside : DerivedFrom source [.phrase (.inside .labeledStatement)] (bareOf cs) ps rest)
    (hparts : ∀ q ∈ ps, q.2.Stated source → Tree.Good source (LegibleIfClosed p) q.2)
    (hu : T.Has (.node .labeledStatement (extentOf place ps) ps)) :
    Tree.Good source (LegibleIfClosed p) (.node .labeledStatement (extentOf place ps) ps) := by
  obtain ⟨t, middle, b, hlabeled⟩ := exists_labeled hview hk hinside
  have hfilter : (ps.filter fun q => q.2.isNamed) =
      (.name, .leaf .name t.extent) :: (middle ++ [(Role.body, b)]).filter fun q => q.2.isNamed := by
    rw [hlabeled.parts]
    rfl
  have hroles : ownedRoles? source .labeledStatement (extentOf place ps) ps = none := by
    simp [ownedRoles?]
  intro body
  rw [Tree.statement]
  swap
  · decide
  by_cases hany : (middle ++ [(Role.body, b)]).any (fun q => q.2.isNamed) = true
  · obtain ⟨q, hq, hnamed⟩ := List.any_eq_true.1 hany
    have hlabel : Tree.label? ps = some (.leaf .name t.extent) := by
      have hmem : q ∈ (middle ++ [(Role.body, b)]).filter fun q => q.2.isNamed :=
        List.mem_filter.2 ⟨hq, hnamed⟩
      obtain ⟨r, rs, hrs⟩ := List.exists_cons_of_ne_nil (List.ne_nil_of_mem hmem)
      rw [Tree.label?, hfilter, hrs]
    have hlast : Tree.lastStatement source ps = Tree.lastStatement source (middle ++ [(.body, b)]) := by
      rw [hlabeled.parts, List.cons_append, Tree.lastStatement, if_pos hany]
    have hnameds : ∀ q ∈ middle ++ [(Role.body, b)], q.2.isNamed = true →
        Tree.Good source (LegibleIfClosed p) q.2 := by
      intro q hq hnamed
      refine hparts q (hlabeled.parts ▸ List.mem_cons_of_mem _ hq) ?_
      rcases List.mem_append.1 hq with hq | hq
      · exact hlabeled.middle q hq hnamed
      · obtain rfl := List.mem_singleton.1 hq
        exact hlabeled.stated
    obtain ⟨hstatement, hadds⟩ := Tree.adds_lastStatement hnameds body
    have hlowers : ∀ q ∈ middle ++ [(Role.body, b)], Tree.Lowers source q.2 :=
      fun q _ => Tree.lowers q.2
    obtain ⟨hsome, -⟩ := Tree.grows_lastStatement _ hlowers body
    rw [hany] at hsome
    obtain ⟨s, hs⟩ := Option.isSome_iff_exists.1 hsome
    have htext : (Tree.leaf .name t.extent).textIn source = t.text := by
      rw [Tree.textIn]
      exact String.toList_inj.1 (String.toList_ofList.trans (text_of_mem_tokens hlabeled.token).1.symm)
    simp only [Tree.exitKind?, hroles, hlabel, if_true, Tree.run_bind, Tree.run_pure, hlast]
    refine ⟨?_, hadds⟩
    rw [hs, Option.getD_some, htext]
    exact fun hclosed => ⟨hlabeled.named, hlabeled.label, hclosed.1, hstatement s hs hclosed.2⟩
  · have hlabel : Tree.label? ps = none := by
      rw [List.any_eq_true, not_exists] at hany
      rw [Tree.label?, hfilter, List.filter_eq_nil_iff.2 fun q hq hnamed => hany q ⟨hq, hnamed⟩]
    have hb : b.isNamed = false := by
      rw [Bool.not_eq_true, List.any_append, Bool.or_eq_false_iff] at hany
      simpa using hany.2
    simp only [Tree.exitKind?, hroles, hlabel, if_true]
    exact ⟨fun _ => legible_asText fun text htext =>
      h.isStatementText_empty hview hk hu hps hinside hlabeled hb hp htext, .refl body⟩

/-- The header of a `catch`. -/
theorem exists_of_handler_mem {header : String}
    (h : OwnedAs.handler header ∈ Tree.clausesAs source .tryStatement ps) : ∃ role extent qs,
      (role, Tree.node .catchClause extent qs) ∈ ps ∧ header = Tree.trimmedSlice source extent.start
        (((part? .body qs).map fun b => b.extent.start).getD extent.stop) := by
  obtain ⟨⟨role, t⟩, hq, hclause⟩ := List.mem_filterMap.1 h
  cases t with
  | leaf => cases hclause
  | node kind extent qs =>
    simp only [Tree.clauseAs?, Option.ite_none_right_eq_some, Option.some.injEq] at hclause
    obtain ⟨hkind, hclause⟩ := hclause
    rw [clauseAs] at hclause
    split at hclause
    · cases hclause
    · next hfinally =>
      cases hclause
      obtain rfl : kind = .catchClause := by
        simpa [isClause, hfinally] using hkind
      exact ⟨role, extent, qs, hq, rfl⟩

theorem isHandler_of_isClause {outer : NodeKind} {extent : Extent} (h : isClause outer kind = true) :
    (Tree.node kind extent ps).isHandler = true := by
  unfold isClause at h
  simp only [Bool.and_eq_true, Bool.or_eq_true, decide_eq_true_eq] at h
  rcases h.2 with rfl | rfl <;> rfl

/-- The handlers of a `try` own blocks. -/
theorem mem_handlers {owned : List (OwnedAs × BlockId)} {header : String} :
    OwnedAs.handler header ∈ owned.map Prod.fst ↔ ∃ c ∈ Tree.handlers owned, c.header = header := by
  constructor
  · intro h
    obtain ⟨⟨as, id⟩, hmem, rfl⟩ := List.mem_map.1 h
    exact ⟨⟨header, id⟩, List.mem_filterMap.2 ⟨_, hmem, rfl⟩, rfl⟩
  · rintro ⟨c, hc, rfl⟩
    obtain ⟨⟨as, id⟩, hmem, hhandler⟩ := List.mem_filterMap.1 hc
    cases as <;> cases hhandler
    exact List.mem_map_of_mem hmem

/-- The headers of the `catch` clauses of a `try` are those of its handlers. -/
theorem legible_catches {owned : List (OwnedAs × BlockId)} (htidy : Tidy source)
    (hw : ∀ q ∈ ps, q.2.WellFormed)
    (hhandlers : ∀ q ∈ ps, q.2.isHandler = true → q.2.Handler source)
    (hkeys : ∀ as ∈ owned.map Prod.fst, as = .body ∨ as ∈ Tree.clausesAs source .tryStatement ps)
    {c : CatchClause} (hc : c ∈ Tree.handlers owned) (hclosed : runsOn c.header.toList = false) :
    ∃ w s, Spells c.header.toList (wordsIn [.word w, s]) ∧ IsWord "catch" w ∧ Parenthesized s := by
  have hmem := (hkeys _ (mem_handlers.2 ⟨c, hc, rfl⟩)).resolve_left (by rintro ⟨⟩)
  obtain ⟨role, extent, qs, hq, hheader⟩ := exists_of_handler_mem hmem
  obtain ⟨b, hb, hframes⟩ := (hhandlers _ hq rfl).exists_body htidy (hw _ hq)
  have hpart : part? .body qs = some b := hb.part
  obtain ⟨w, s, ⟨hwords, htidy'⟩, hword, hs⟩ := hframes rfl
  rw [hpart] at hheader
  have hheader : c.header = Tree.trimmedSlice source extent.start b.extent.start := hheader
  rw [hheader] at hclosed ⊢
  exact ⟨w, s, ⟨hwords, htidy', hclosed⟩, hword, hs⟩

/-- A `try` that has a handler owns the block of one. -/
theorem owns_of_handler {role : Role} {t : Tree} (htidy : Tidy source) (hw : t.WellFormed)
    (h : t.Handler source) (hq : (role, t) ∈ ps) (body : Body) :
    Tree.handlers ((ownedBlocks source .tryStatement none [.body] ps).run body).1 ≠ [] ∨
      Tree.owned? .final ((ownedBlocks source .tryStatement none [.body] ps).run body).1 ≠ none := by
  obtain ⟨b, hb, -⟩ := h.exists_body htidy hw
  cases h with
  | @node kind place cs rest qs hkind hcatch hinside =>
    have hpart : part? .body qs = some b := hb.part
    have hmem : clauseAs source kind (extentOf place qs) qs ∈ _ :=
      Tree.mem_ownedBlocks_clause hkind (by rw [hpart]; rfl) hq none [.body] body
    rw [clauseAs] at hmem
    split at hmem
    · obtain ⟨id, hid⟩ := Tree.exists_owned? hmem
      exact .inr (hid ▸ Option.some_ne_none id)
    · obtain ⟨c, hc, -⟩ := mem_handlers.1 hmem
      exact .inl (List.ne_nil_of_mem hc)

include htidy in
theorem good_try (hview : viewOf cs = x :: hs) (hk : Phrase.statementKind? x hs = some .tryStatement)
    (hinside : DerivedFrom source [.phrase (.inside .tryStatement)] (bareOf cs) ps rest)
    (hparts : ∀ q ∈ ps, q.2.Stated source → Tree.Good source (LegibleIfClosed p) q.2)
    (hinner : ∀ q ∈ ps, ∀ r ∈ q.2.parts, r.2.Stated source → Tree.Good source (LegibleIfClosed p) r.2)
    (hw : (Tree.node .tryStatement (extentOf place ps) ps).WellFormed) :
    Tree.Good source (LegibleIfClosed p) (.node .tryStatement (extentOf place ps) ps) := by
  obtain ⟨b, hb, ⟨ss, ⟨hwords, htidy'⟩, hread⟩, hhandlers⟩ := exists_try htidy hw hview hk hinside
  have hwparts : ∀ q ∈ ps, q.2.WellFormed := hw.parts
  have hfree : ∀ q ∈ ps, q.1 = .body → Tree.clauseAs? source .tryStatement q.2 = none := by
    cases hw with
    | node _ _ htry _ => exact fun q hq hrole => Tree.clauseAs?_try ((htry rfl).body q hq hrole)
  intro body
  have howns : Tree.OwnsBlocks source .tryStatement none _ ps body _ :=
    Tree.ownsBlocks_parts .tryStatement ps [.body] body
  have hkeys : ∀ as ∈ ((ownedBlocks source .tryStatement none [.body] ps).run body).1.map Prod.fst,
      as = .body ∨ as ∈ Tree.clausesAs source .tryStatement ps :=
    fun as has => List.mem_cons.1 (howns.keys.subset has)
  have hadds : body.Adds (LegibleIfClosed p)
      ((ownedBlocks source .tryStatement none [.body] ps).run body).2 := by
    refine Tree.adds_ownedBlocks [.body]
      (fun q hq hrole => hparts q hq (hb.stated_of_mem hq hrole))
      (fun role kind extent qs hq hkind clause body => ?_) none [.body] (fun role hrole => hrole) body
    -- the block of a handler
    have hhandler := hhandlers _ hq (isHandler_of_isClause hkind)
    obtain ⟨b', hb', -⟩ := hhandler.exists_body htidy (hwparts _ hq)
    exact Tree.adds_ownedBlocks_of_ne_try (Tree.ne_try_of_isClause hkind) (fun r hr hrole =>
      hinner _ hq r hr (hb'.stated_of_mem hr hrole)) (some clause) body
  obtain ⟨id, hid⟩ := exists_statementAround (extentOf place ps) hb.part hfree body
  have hroles : ownedRoles? source .tryStatement (extentOf place ps) ps = some [.body] :=
    ownedRoles?_of_part? hb.part (.inr rfl) fun h => absurd h (by decide)
  rw [Tree.statement]
  swap
  · decide
  simp only [Tree.exitKind?, hroles, Tree.run_bind, Tree.run_pure]
  rw [hid]
  refine ⟨fun hclosed => ⟨fun c hc => ?_, ss, ⟨hwords, htidy', hclosed.1⟩,
    fun ss' handlers hss hhs hne => hread ss' handlers hss hhs fun hnil q hq hhandler => ?_⟩, hadds⟩
  · exact legible_catches htidy hwparts hhandlers hkeys hc (hclosed.2 c hc)
  · obtain ⟨hcatches, hfinal⟩ := hne hnil
    rcases owns_of_handler htidy (hwparts q hq) hhandler hq body with h | h
    · exact h hcatches
    · exact h hfinal

end Owner

/-- **The statements of a derived source are read again**, with those of the blocks that they own. -/
theorem Renewal.good_of_stated {T : Tree} {edits : List Edit} (h : Renewal source T edits) {p : Printer}
    (hp : p.nested = edits) {u : Tree} (hu : T.Has u) (hs : u.Stated source) :
    Tree.Good source (LegibleIfClosed p) u := by
  induction u using Tree.induction with
  | hleaf kind extent =>
    cases hs with
    | comment ht hcomment => exact h.good_comment ht hcomment
    | empty ht hsemicolon => exact h.good_semicolon hp ht hsemicolon hu
  | hnode kind extent parts ih ih' =>
    have hw := hu.wellFormed h.wellFormed
    have hparts : ∀ q ∈ parts, q.2.Stated source → Tree.Good source (LegibleIfClosed p) q.2 :=
      fun q hq => ih q hq (hu.of_parts q hq)
    have hinner : ∀ q ∈ parts, ∀ r ∈ q.2.parts, r.2.Stated source →
        Tree.Good source (LegibleIfClosed p) r.2 :=
      fun q hq r hr => ih' q hq r hr ((hu.of_parts q hq).of_parts r hr)
    cases hs with
    | node hview hx hk hps hinside =>
      rcases kind_of_statementKind? hk with rfl | rfl | rfl | hcompound | rfl | hwhole
      · exact good_labeled h hp hview hk hps hinside hparts hu
      · exact good_block hparts hinside _
      · exact good_conditional h.tidy hparts hinside _
      · exact good_compound h.tidy hview hk hinside hparts hcompound hw
      · exact good_try h.tidy hview hk hinside hparts hinner hw
      · exact h.good_whole hp hview hx hk hps hinside hu hwhole

end Java

end BranchExclusion
