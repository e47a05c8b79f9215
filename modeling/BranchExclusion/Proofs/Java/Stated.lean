import BranchExclusion.Proofs.Java.Renewed

/-!
# Statements of a derived source

* `Tree.Stated`: a tree that was read as a statement, or stands between statements as a comment;
* `DerivedFrom.forall_statements`, `DerivedFrom.forall_block`: the parts of a block;
* `Renewal.isStatementText_whole`: the new text of a statement that is kept.
-/

namespace BranchExclusion.Java

open Layout (Printer)
open Text (slice)
open Phrase (statementKind? expandStatement)

variable {source : List Char} {es es' : List Symbol} {cs mid rest : List Chunk} {ps qs lead : Parts}
  {role : Role} {kind : NodeKind} {x : Head} {hs : List Head}

/-! ### Comments before chunks -/

@[simp] theorem viewOf_bareOf (cs : List Chunk) : viewOf (bareOf cs) = viewOf cs := by
  cases cs with
  | nil => rfl
  | cons c cs => cases c <;> rfl

/-- The parts are comments of the source. -/
def IsLead (source : List Char) (lead : Parts) : Prop :=
  ∀ p ∈ lead, ∃ t ∈ tokens source, t.isComment = true ∧ p = (.part, .leaf .comment t.extent)

theorem isLead_lead {w : Lexeme} (hw : w.Proper) (h : ∀ t ∈ w.comments, t ∈ tokens source) :
    IsLead source w.lead := by
  intro p hp
  obtain ⟨t, ht, rfl⟩ := List.mem_map.1 hp
  exact ⟨t, h t ht, hw.comments t ht, rfl⟩

theorem DerivedFrom.isLead_first {c : Chunk} (h : DerivedFrom source es (c :: cs) ps rest) :
    IsLead source c.first.lead := by
  refine isLead_lead (proper_first h.paired) fun t ht => h.tokens.subset ?_
  rw [tokensOf_cons, c.tokens_bare]
  simp [ht]

theorem DerivedFrom.isLead (h : DerivedFrom source es cs ps rest) : IsLead source (leadOf cs) := by
  cases cs with
  | nil => exact List.forall_mem_nil _
  | cons c cs => exact h.isLead_first

/-! ### Statements -/

/-- The tree was read as a statement, or it is a comment. -/
inductive Tree.Stated (source : List Char) : Tree → Prop
  | comment {t : Token} : t ∈ tokens source → t.isComment = true →
      Stated source (leaf .comment t.extent)
  | empty {t : Token} : t ∈ tokens source → t.word.is ";" = true →
      Stated source (leaf (.fixed t.text) t.extent)
  | node {kind : NodeKind} {place : Place} {x : Head} {hs : List Head} {cs rest : List Chunk}
      {ps : Parts} : viewOf cs = x :: hs → x.is ";" = false → statementKind? x hs = some kind →
      ps ≠ [] → DerivedFrom source [.phrase (.inside kind)] (bareOf cs) ps rest →
      Stated source (node kind (extentOf place ps) ps)

theorem IsLead.stated (h : IsLead source lead) : ∀ p ∈ lead, p.2.Stated source := by
  intro p hp
  obtain ⟨t, ht, hcomment, rfl⟩ := h p hp
  exact .comment ht hcomment

theorem exists_of_viewOf (h : viewOf cs = x :: hs) : ∃ c cs', cs = c :: cs' ∧ c.head = x := by
  cases cs with
  | nil => cases h
  | cons c cs =>
    refine ⟨c, cs, rfl, ?_⟩
    unfold viewOf view at h
    rw [List.map_cons] at h
    dsimp only at h
    split at h <;> exact (List.cons.inj h).1

/-- What is read as a statement is a statement, behind comments. -/
theorem DerivedFrom.exists_statement (h : DerivedFrom source [.phrase (.statement role)] cs ps rest)
    (hview : viewOf cs ≠ []) (hrole : role ≠ .name) :
    ∃ u, ps = leadOf cs ++ [(role, u)] ∧ u.Stated source ∧ u.isComment = false := by
  have h : DerivedFrom source (expandStatement role (viewOf cs)) cs ps rest := h.phrase
  cases hview : viewOf cs with
  | nil => contradiction
  | cons x hs =>
    rw [hview, expandStatement] at h
    split at h
    · next hx =>
      obtain ⟨w, rfl, rfl, hstray, -⟩ := h.token
      obtain ⟨_, _, heq, hhead⟩ := exists_of_viewOf hview
      obtain ⟨rfl, rfl⟩ := List.cons.inj heq
      have hw : w.token.word.is ";" = true := by rw [← hhead] at hx; exact hx
      have ht : w.token ∈ Java.tokens source := h.tokens.subset (by simp [Lexeme.tokens])
      have htree : w.token.tree role = .leaf (.fixed w.token.text) w.token.extent := by
        rw [tree_eq hstray, Token.leafKind, if_neg hrole]
      exact ⟨w.token.tree role, rfl, htree ▸ .empty ht hw, by rw [htree]; rfl⟩
    · next hx =>
      split at h
      · next kind hkind =>
        obtain ⟨place, qs, -, hqs, rfl, hinside⟩ := h.node
        exact ⟨_, rfl, .node hview ((Bool.not_eq_true _).mp hx) hkind hqs hinside, rfl⟩
      · split at h
        · obtain ⟨_, _, hne, -⟩ := h.node
          exact absurd rfl hne
        · cases h.derives

/-- A phrase that is read as often as it finds something. -/
theorem DerivedFrom.forall_many {p : Phrase} {Q : Role × Tree → Prop}
    (hQ : ∀ {cs ps rest}, DerivedFrom source (p.expand (viewOf cs)) cs ps rest → ∀ q ∈ ps, Q q)
    (h : DerivedFrom source [.many p] cs ps rest) : ∀ q ∈ ps, Q q := by
  induction hlength : cs.length using Nat.strong_induction_on generalizing cs ps with
  | _ n ih =>
    obtain ⟨hderives, hpaired, htokens⟩ := h
    cases hderives with
    | done _ hnil =>
      cases hnil
      exact List.forall_mem_nil _
    | more _ hlt hfirst hrest =>
      have hfirst : DerivedFrom source (p.expand (viewOf cs)) cs _ _ := ⟨hfirst, hpaired, htokens⟩
      have hleft := hfirst.left
      exact List.forall_mem_append.2 ⟨hQ hfirst,
        ih _ (hlength ▸ hlt) ⟨hrest, hleft.1, hleft.2⟩ rfl⟩

theorem DerivedFrom.forall_many_statements
    (h : DerivedFrom source [.many (.statement .part)] cs ps rest) : ∀ p ∈ ps, p.2.Stated source := by
  refine h.forall_many (Q := fun p => p.2.Stated source) fun {cs ps rest} h => ?_
  have h : DerivedFrom source [.phrase (.statement .part)] cs ps rest := by
    have hderives : Derives [.phrase (.statement .part)] cs (ps ++ []) rest := .phrase h.derives .nil
    rw [List.append_nil] at hderives
    exact ⟨hderives, h.paired, h.tokens⟩
  by_cases hview : viewOf cs = []
  · have hnil : DerivedFrom source (expandStatement .part (viewOf cs)) cs ps rest := h.phrase
    rw [hview] at hnil
    rw [hnil.of_nil.1]
    exact List.forall_mem_nil _
  · obtain ⟨u, rfl, hu, -⟩ := h.exists_statement hview (by decide)
    exact List.forall_mem_append.2 ⟨h.isLead.stated, List.forall_mem_singleton.2 hu⟩

/-- The statements of a block. -/
theorem DerivedFrom.forall_statements (h : DerivedFrom source [.phrase .statements] cs ps rest) :
    ∀ p ∈ ps, p.2.Stated source := by
  have h : DerivedFrom source (if isLoneCall (viewOf cs) then [.node .part .error] else
    [.many (.statement .part)]) cs ps rest := h.phrase
  split at h
  · obtain ⟨_, _, hne, -⟩ := h.node
    exact absurd rfl hne
  · exact h.forall_many_statements

/-- A brace, or a comment before it. -/
def IsEdge (source : List Char) (p : Role × Tree) : Prop :=
  p.2.isBrace = true ∨ p.2.isComment = true ∧ p.2.Stated source

theorem IsEdge.stated {p : Role × Tree} (h : IsEdge source p) :
    p.2.isBrace = true ∨ p.2.Stated source := h.imp_right And.right

theorem IsLead.isEdge (h : IsLead source lead) : ∀ p ∈ lead, IsEdge source p := by
  intro p hp
  refine .inr ⟨?_, h.stated p hp⟩
  obtain ⟨t, -, -, rfl⟩ := h p hp
  rfl

/-- A brace is no statement. -/
theorem isEdge_parts {w : Lexeme} (hlead : IsLead source w.lead)
    (hstray : w.token.word.isStray = false)
    (hbrace : w.token.word.is leftBrace = true ∨ w.token.word.is rightBrace = true) :
    ∀ p ∈ w.parts .part, IsEdge source p := by
  refine List.forall_mem_append.2 ⟨hlead.isEdge, List.forall_mem_singleton.2 (.inl ?_)⟩
  rw [tree_eq hstray, Token.leafKind, if_neg (by decide)]
  show (w.token.text == leftBrace || w.token.text == rightBrace) = true
  rcases hbrace with h | h <;> rw [text_eq_of_is (by decide) h] <;> rfl

/-- What stands in braces, and the braces. -/
theorem DerivedFrom.exists_braced {p : Phrase}
    (h : DerivedFrom source [.group leftBrace p] cs ps rest) :
    ∃ inner before qs behind, ps = before ++ qs ++ behind ∧ DerivedFrom source [.phrase p] inner qs [] ∧
      (∀ p ∈ before, IsEdge source p) ∧ ∀ p ∈ behind, IsEdge source p := by
  obtain ⟨o, inner, c, qs, rfl, hopening, hbrackets, rfl, hinner⟩ := h.group
  have htokens : ∀ t ∈ o.comments ++ c.comments, t ∈ Java.tokens source := fun t ht => by
    refine h.tokens.subset ?_
    rw [tokensOf_cons, Chunk.tokens_group]
    rcases List.mem_append.1 ht with ht | ht <;> simp [Lexeme.tokens, ht]
  have hcloser : closerOf o.token.word = rightBrace := by
    rw [Word.is, beq_iff_eq] at hopening
    unfold closerOf Word.is
    rw [hopening]
    rfl
  refine ⟨inner, _, qs, _, rfl, hinner, ?_, ?_⟩
  · exact isEdge_parts (isLead_lead hbrackets.opening fun t ht => htokens t (by simp [ht]))
      hbrackets.opening_stray (.inl hopening)
  · exact isEdge_parts (isLead_lead hbrackets.closing fun t ht => htokens t (by simp [ht]))
      hbrackets.closing_stray (.inr (hcloser ▸ hbrackets.closes))

/-- The parts of a block are statements, and its braces. -/
theorem DerivedFrom.forall_block (h : DerivedFrom source [.phrase (.inside .block)] cs ps rest) :
    ∀ p ∈ ps, p.2.isBrace = true ∨ p.2.Stated source := by
  have h : DerivedFrom source [.group leftBrace .statements] cs ps rest := h.phrase
  obtain ⟨inner, before, qs, behind, rfl, hinner, hbefore, hbehind⟩ := h.exists_braced
  exact List.forall_mem_append.2 ⟨List.forall_mem_append.2 ⟨fun p hp => (hbefore p hp).stated,
    fun p hp => .inr (hinner.forall_statements p hp)⟩, fun p hp => (hbehind p hp).stated⟩

/-- The parts of the body of a constructor, which may start with a call of another one. -/
theorem DerivedFrom.constructor_cases
    (h : DerivedFrom source [.phrase (.inside .constructorBody)] cs ps rest) :
    (∀ p ∈ ps, p.2.isBrace = true ∨ p.2.Stated source) ∨ ∃ before place qs behind cs₁ mid,
      ps = before ++ (.part, .node .constructorCall (extentOf place qs) qs) :: behind ∧
        startsConstructorCall (viewOf cs₁) = true ∧ qs ≠ [] ∧
        DerivedFrom source [.phrase (.inside .constructorCall)] (bareOf cs₁) qs mid ∧
        (∀ p ∈ before, IsEdge source p) ∧ ∀ p ∈ behind, p.2.isBrace = true ∨ p.2.Stated source := by
  have h : DerivedFrom source [.group leftBrace .constructorStatements] cs ps rest := h.phrase
  obtain ⟨inner, before, qs, behind, rfl, hinner, hbefore, hbehind⟩ := h.exists_braced
  have hinner : DerivedFrom source (if startsConstructorCall (viewOf inner) then
    [.node .part .constructorCall, .many (.statement .part)] else [.phrase .statements]) inner qs [] :=
    hinner.phrase
  split at hinner
  · next hcall =>
    obtain ⟨calls, more, mid, rfl, hcalls, hmore⟩ := hinner.cons
    have hlead := hcalls.isLead
    obtain ⟨place, qs, -, hqs, rfl, hinside⟩ := hcalls.node
    refine .inr ⟨before ++ leadOf inner, place, qs, more ++ behind, inner, mid, by simp, hcall, hqs,
      hinside, List.forall_mem_append.2 ⟨hbefore, hlead.isEdge⟩, List.forall_mem_append.2
        ⟨fun p hp => .inr (hmore.forall_many_statements p hp), fun p hp => (hbehind p hp).stated⟩⟩
  · exact .inl (List.forall_mem_append.2 ⟨List.forall_mem_append.2 ⟨fun p hp => (hbefore p hp).stated,
      fun p hp => .inr (hinner.forall_statements p hp)⟩, fun p hp => (hbehind p hp).stated⟩)

/-! ### Statements that are kept -/

namespace Renewal

variable {T u : Tree} {edits : List Edit} (h : Renewal source T edits) {p : Printer}
  {place : Place} {text : List Char}
include h

/-- **A statement that ends by itself** is read as before. -/
theorem isStatementText_whole (hview : viewOf cs = x :: hs) (hx : x.is ";" = false)
    (hk : statementKind? x hs = some kind) (hkind : kind.isWhole = true)
    (hu : T.Has (.node kind (extentOf place ps) ps)) (hps : ps ≠ [])
    (hinside : DerivedFrom source [.phrase (.inside kind)] (bareOf cs) ps rest) (hp : p.nested = edits)
    (htext : splice (slice source (extentOf place ps).start.offset (extentOf place ps).stop.offset)
      (p.inside (extentOf place ps).range) = .ok text) : IsStatementText text := by
  have hbraced : kind.isBraced = false ∧ kind ≠ .error := by
    cases kind <;> first | exact ⟨rfl, by decide⟩ | cases hkind
  obtain ⟨ss, within, used, hss, hwords, htidy⟩ := h.exists_rereads hu hbraced.1 hps hinside hp htext
  have hlength := hss.length_eq
  have hlt := hinside.derives.length.2 hps
  have hne : ss ≠ [] := by
    rintro rfl
    simp at hlength
    omega
  have hmore : sight (shapesOf rest) = viewOf rest := sight_shapesOf rest
  have hsight : sight (ss ++ shapesOf rest) = x :: hs := by
    rw [Rereads.sight_eq hss.signs hmore, ← hview, viewOf_bareOf]
  have hreads := Reads.to_statement .part hsight hx hk hbraced.2 (by simp; omega) (hss.reads _ hmore)
  refine ⟨htidy, ss, hwords,
    isStatement_of_reads hss.sound hne (fun x' hs' kind' hsight' hk' => ?_) hreads⟩
  obtain ⟨rfl, rfl⟩ := List.cons.inj (hsight.symm.trans hsight')
  obtain rfl := Option.some.inj (hk.symm.trans hk')
  exact .inr hkind

/-- A call of another constructor is read as before. -/
theorem isCallText (hcall : startsConstructorCall (viewOf cs) = true)
    (hu : T.Has (.node .constructorCall (extentOf place ps) ps)) (hps : ps ≠ [])
    (hinside : DerivedFrom source [.phrase (.inside .constructorCall)] (bareOf cs) ps rest)
    (hp : p.nested = edits)
    (htext : splice (slice source (extentOf place ps).start.offset (extentOf place ps).stop.offset)
      (p.inside (extentOf place ps).range) = .ok text) :
    IsCallText text := by
  obtain ⟨ss, within, used, hss, hwords, htidy⟩ := h.exists_rereads hu rfl hps hinside hp htext
  have hlength := hss.length_eq
  have hlt := hinside.derives.length.2 hps
  have hmore : sight (shapesOf rest) = viewOf rest := sight_shapesOf rest
  have hsight : sight (ss ++ shapesOf rest) = viewOf cs := by
    rw [Rereads.sight_eq hss.signs hmore, viewOf_bareOf]
  refine ⟨htidy, ss, hwords, isCall_of_reads hss.sound (hsight ▸ hcall) ?_⟩
  exact .node (by decide) (by simp; omega) (hss.reads _ hmore) .nil

end Renewal

end BranchExclusion.Java
