import BranchExclusion.Proofs.Java.Exchanged

/-!
# Statements one behind the other

A statement that is read before something quiet, which does not go on with it, is read before everything
quiet. So statements can be read one behind the other, and in the branches and bodies of others.

* `Quiet`: shapes that go on with no statement;
* `IsStatement`: the shapes of a statement;
* `isStatement_of_reads`: a statement that ends with a semicolon or with a block of its own;
* `Statements`: statements one behind the other;
* `isStatement_if`, `isStatement_headed`, `isStatement_do`, `isStatement_try`: statements in the blocks
  of others.
-/

namespace BranchExclusion.Java

open Phrase (expandInside expandStatement statementKind? keywordStatement?)

/-! ### What is seen first -/

section Sight

variable {s : Shape} {w : Word} {ss : List Shape} {text : String}

theorem sight_cons (s : Shape) (ss : List Shape) :
    sight (s :: ss) = s.head :: if s.head.stops then [] else sight ss := by
  rw [sight, List.map_cons, view, sight]
  split <;> rfl

theorem starts_sight (s : Shape) (ss : List Shape) (text : String) :
    starts text (sight (s :: ss)) = s.head.is text := by
  rw [sight_cons]
  rfl

theorem text_of_is (h : w.is text = true) : w.text = text := by
  rwa [Word.is, beq_iff_eq] at h

end Sight

/-- The shapes do not go on with a statement before them. -/
def Quiet (ss : List Shape) : Prop :=
  ∀ text ∈ ["else", "catch", "finally"], starts text (sight ss) = false

theorem quiet_nil : Quiet [] := fun _ _ => rfl

/-- The shapes of a statement. -/
structure IsStatement (ss : List Shape) : Prop where
  sound : Sound ss
  stops : Stops ss
  no_call : startsConstructorCall (sight ss) = false
  reads : ∀ role more, Quiet more → Reads [.phrase (.statement role)] (ss ++ more) more

/-! ### How a statement starts -/

section Starts

variable {role : Role} {ss rest : List Shape} {h : Head} {hs : List Head}

/-- No constructor call starts without `this` or `super`. -/
theorem startsConstructorCall_eq_false
    (h : ∀ x ∈ hs, x.is "this" = false ∧ x.is "super" = false) : startsConstructorCall hs = false := by
  have hsuffix : ∀ depth (hs : List Head), afterAngle depth hs ⊆ hs := by
    intro depth hs
    induction hs generalizing depth with
    | nil => exact fun x hx => by cases depth <;> cases hx
    | cons y hs ih =>
      unfold afterAngle
      split
      · exact fun x hx => List.mem_cons_of_mem _ (ih _ hx)
      · split
        · cases depth with
          | zero => exact fun x hx => List.mem_cons_of_mem _ hx
          | succ outer => exact fun x hx => List.mem_cons_of_mem _ (ih _ hx)
        · exact fun x hx => List.mem_cons_of_mem _ (ih _ hx)
  have hcall : ∀ x ∈ (afterTypeArguments hs).takeWhile fun h => !h.is ";", x ∈ hs := by
    intro x hx
    have hx := (List.takeWhile_subset _) hx
    unfold afterTypeArguments at hx
    split at hx
    · exact List.mem_of_mem_tail (hsuffix _ _ hx)
    · exact hx
  unfold startsConstructorCall
  generalize ((afterTypeArguments hs).takeWhile fun h => !h.is ";") = call at hcall ⊢
  have hstart : ∀ text, (text = "this" ∨ text = "super") → starts text call = false := by
    rintro text htext
    cases call with
    | nil => rfl
    | cons x call =>
      obtain ⟨hthis, hsuper⟩ := h x (hcall x List.mem_cons_self)
      rcases htext with rfl | rfl
      · exact hthis
      · exact hsuper
  have hqualified : ((call.zip call.tail).zipIdx.any fun p =>
      p.1.1.is "." && p.1.2.is "super" && starts "(" (call.drop (p.2 + 2)) &&
        call.length = p.2 + 3) = false := by
    refine List.any_eq_false.2 fun p hp => ?_
    have hmem : p.1.2 ∈ call.tail := (List.of_mem_zip (List.fst_mem_of_mem_zipIdx hp)).2
    have hsuper := (h _ (hcall _ (List.mem_of_mem_tail hmem))).2
    simp [hsuper]
  simp [hstart "this" (.inl rfl), hstart "super" (.inr rfl), hqualified]

theorem text_of_keywordStatement? {kind : NodeKind} (h' : keywordStatement? h hs = some kind) :
    h.text ∈ "for" :: "synchronized" :: Phrase.keywordStatements.map Prod.fst := by
  unfold keywordStatement? at h'
  split at h'
  · next hfor => exact text_of_is hfor ▸ List.mem_cons_self
  · split at h'
    · next hsync =>
      exact text_of_is (Bool.and_eq_true_iff.1 hsync).1 ▸ List.mem_cons_of_mem _ List.mem_cons_self
    · obtain ⟨before, after, hsplit, -⟩ := List.lookup_eq_some_iff.1 h'
      rw [hsplit]
      simp

/-- A keyword that starts a statement is no name, no bracket and goes on with nothing. -/
theorem statementKind?_keyword {kind : NodeKind} (hkeyword : keywordStatement? h hs = some kind)
    (hcall : startsConstructorCall (h :: hs) = false) :
    statementKind? h hs = some kind ∧ h.is ";" = false := by
  have htext := text_of_keywordStatement? hkeyword
  have hall : ∀ text ∈ "for" :: "synchronized" :: Phrase.keywordStatements.map Prod.fst,
      Word.keywords.contains text = true ∧ Word.continuations.contains text = false ∧
        ∀ symbol ∈ [")", "]", rightBrace, leftBrace, ";"], (text == symbol) = false := by
    decide
  obtain ⟨hname, hgoes, hsymbols⟩ := hall h.text htext
  have his : ∀ symbol ∈ [")", "]", rightBrace, leftBrace, ";"], h.is symbol = false := hsymbols
  simp only [List.forall_mem_cons] at his
  obtain ⟨h₁, h₂, h₃, h₄, h₅, -⟩ := his
  have hnone : h.isName = false := by
    unfold Word.isName
    rw [hname, Bool.not_true, Bool.and_false]
  have hcloses : h.closes = false := by
    unfold Word.closes
    rw [h₁, h₂, h₃]
    rfl
  refine ⟨?_, h₅⟩
  simp only [statementKind?, hnone, hcloses, hgoes, hcall, h₄, hkeyword]
  rfl

/-- A statement is a semicolon, or a node of its own. -/
theorem Reads.statement_cases (h : Reads [.phrase (.statement role)] ss rest) (hne : ss ≠ []) :
    (∃ w, ss = .word w :: rest ∧ w.is ";" = true) ∨
      ∃ x hs kind, sight ss = x :: hs ∧ x.is ";" = false ∧ statementKind? x hs = some kind ∧
        kind ≠ .error ∧ rest.length < ss.length ∧ Reads [.phrase (.inside kind)] ss rest := by
  obtain ⟨s, behind, rfl⟩ := List.exists_cons_of_ne_nil hne
  have h : Reads (expandStatement role (sight (s :: behind))) (s :: behind) rest := h.of_phrase
  obtain ⟨hs, hsight⟩ : ∃ hs, sight (s :: behind) = s.head :: hs := ⟨_, sight_cons s behind⟩
  rw [hsight, expandStatement] at h
  split at h
  · next hsemicolon =>
    left
    cases h with
    | token hnil =>
      cases hnil
      exact ⟨_, rfl, hsemicolon⟩
  · next hsemicolon =>
    right
    cases hkind : statementKind? s.head hs with
    | none =>
      rw [hkind] at h
      dsimp only at h
      split at h
      · cases h with
        | node hkind => exact absurd rfl hkind
      · cases h
    | some kind =>
      rw [hkind] at h
      cases h with
      | node hne hlt hinside hnil =>
        cases hnil
        exact ⟨s.head, hs, kind, hsight, Bool.eq_false_iff.2 hsemicolon, hkind, hne, hlt, hinside⟩

theorem Reads.to_statement {x : Head} {kind : NodeKind} (role : Role) (hsight : sight ss = x :: hs)
    (hsemicolon : x.is ";" = false) (hkind : statementKind? x hs = some kind) (hne : kind ≠ .error)
    (hlt : rest.length < ss.length) (h : Reads [.phrase (.inside kind)] ss rest) :
    Reads [.phrase (.statement role)] ss rest := by
  refine .to_phrase ?_
  show Reads (expandStatement role (sight ss)) ss rest
  rw [hsight, expandStatement, if_neg (by simp [hsemicolon])]
  simp only [hkind]
  exact .node hne hlt h .nil

/-- Nothing that a statement starts with goes on with another one. -/
theorem Reads.quiet (h : Reads [.phrase (.statement role)] ss rest) : Quiet ss := by
  cases ss with
  | nil => exact quiet_nil
  | cons s behind =>
    have hgoes : Word.continuations.contains s.head.text = false := by
      rcases h.statement_cases (List.cons_ne_nil _ _) with
        ⟨w, hss, hw⟩ | ⟨x, hs, kind, hsight, hx, hkind, -⟩
      · obtain ⟨rfl, rfl⟩ := List.cons.inj hss
        have htext : (Shape.word w).head.text = ";" := text_of_is hw
        rw [htext]
        decide
      · obtain rfl : x = s.head := (List.cons.inj (hsight.symm.trans (sight_cons s behind))).1
        rw [statementKind?] at hkind
        split at hkind
        · next hlabel =>
          -- what names a label is no keyword
          have hname := (Bool.and_eq_true_iff.1 (Bool.and_eq_true_iff.1 hlabel).1).2
          have hall : ∀ text ∈ Word.continuations, Word.keywords.contains text = true := by decide
          by_contra hgoes
          rw [hall _ (List.contains_iff_mem.1 ((Bool.not_eq_false _).mp hgoes))] at hname
          cases hname
        · split at hkind
          · cases hkind
          · next hgoes =>
            simp only [Bool.or_eq_true, not_or, Bool.not_eq_true] at hgoes
            exact hgoes.1.2
    intro text htext
    rw [starts_sight]
    by_contra his
    have hall : ∀ text ∈ ["else", "catch", "finally"], Word.continuations.contains text = true := by
      decide
    rw [text_of_is ((Bool.not_eq_false _).mp his), hall text htext] at hgoes
    cases hgoes

end Starts

/-! ### Statements that end by themselves -/

/-- A statement or declaration of that kind ends with a semicolon, or with braces that belong to no
statement in it. -/
def NodeKind.isWhole : NodeKind → Bool
  | .simpleStatement | .constructorCall | .returnStatement | .throwStatement | .breakStatement
  | .continueStatement | .switchExpression | .classDeclaration | .interfaceDeclaration
  | .enumDeclaration | .recordDeclaration | .annotationDeclaration => true
  | _ => false

section Whole

variable {kind : NodeKind} {role : Role} {ss rest : List Shape} {e : Symbol}

/-- The symbol reads a semicolon or braces. -/
def Symbol.EndsIn (e : Symbol) : Prop :=
  e = .phrase .semicolon ∨ ∃ role kind p, e = .node role kind ∧ kind ≠ .error ∧
    ∀ hs, (Phrase.inside kind).expand hs = [.group leftBrace p]

theorem Reads.exists_of_endsIn (he : e.EndsIn) (h : Reads [e] ss rest) : ∃ s, ss = s :: rest ∧
    s.head.stops = true ∧ ∀ more, Reads [e] (s :: more) more := by
  rcases he with rfl | ⟨role, kind, p, rfl, hkind, hexpand⟩
  · have h : Reads (if starts ";" (sight ss) then [.next] else [.missing ";"]) ss rest := h.of_phrase
    split at h
    · next hstarts =>
      cases h with
      | @token _ w _ _ _ hnil =>
        cases hnil
        have hw : (Shape.word w).head.is ";" = true := starts_sight _ _ _ ▸ hstarts
        refine ⟨_, rfl, by rw [Head.stops, hw]; rfl, fun more => .to_phrase ?_⟩
        show Reads (if starts ";" (sight (.word w :: more)) then [.next] else [.missing ";"]) _ _
        rw [if_pos (starts_sight _ _ _ ▸ hw)]
        exact .token .nil
    · cases h
  · cases h with
    | node _ _ hinside hnil =>
      cases hnil
      have hgroup := hinside.of_phrase
      rw [hexpand] at hgroup
      cases hgroup with
      | @group _ _ o c _ inner _ _ hopening hinner hnil =>
        cases hnil
        refine ⟨_, rfl, ?_, fun more => .node hkind (Nat.lt_succ_self _) (.to_phrase ?_) .nil⟩
        · show (o.is ";" || o.is leftBrace) = true
          rw [hopening, Bool.or_true]
        · rw [hexpand]
          exact .group hopening hinner .nil

theorem exists_expandInside (hkind : kind.isWhole = true) (hs : List Head) :
    ∃ es e, expandInside hs kind = es ++ [e] ∧ e.EndsIn := by
  have hsemicolon : Symbol.EndsIn (.phrase .semicolon) := .inl rfl
  have hbraces : ∀ {role kind p}, kind ≠ .error →
      (∀ hs, (Phrase.inside kind).expand hs = [.group leftBrace p]) →
      Symbol.EndsIn (.node role kind) :=
    fun hne hexpand => .inr ⟨_, _, _, rfl, hne, hexpand⟩
  have htype : ∀ kind, Symbol.EndsIn (.node .body (Phrase.typeBody kind)) := by
    intro kind
    unfold Phrase.typeBody
    split
    · exact hbraces (by decide) fun _ => rfl
    · split
      · exact hbraces (by decide) fun _ => rfl
      · exact hbraces (by decide) fun _ => rfl
  have htypes : ∀ kind, ∃ es e, Phrase.typeDeclaration kind hs = es ++ [e] ∧ e.EndsIn :=
    fun kind => ⟨[_, _, _], _, rfl, htype kind⟩
  have hunits : ∃ es e, [Symbol.many .unit, .phrase .semicolon] = es ++ [e] ∧ e.EndsIn :=
    ⟨[_], _, rfl, hsemicolon⟩
  cases kind with
  | switchExpression => exact ⟨[_, _], _, rfl, hbraces (by decide) fun _ => rfl⟩
  | _ => first
    | exact htypes _
    | exact hunits
    | cases hkind

/-- What stands behind such a statement makes no difference. -/
theorem Reads.exists_last (hkind : kind.isWhole = true)
    (h : Reads [.phrase (.inside kind)] ss rest) : ∃ used, ss = used ++ rest ∧ Stops used ∧
      ∀ more, Reads [.phrase (.inside kind)] (used ++ more) more := by
  obtain ⟨es, e, hexpand, he⟩ := exists_expandInside hkind (sight ss)
  have h : Reads (expandInside (sight ss) kind) ss rest := h.of_phrase
  rw [hexpand] at h
  obtain ⟨mid, hes, hlast⟩ := h.split
  obtain ⟨s, rfl, hstops, hend⟩ := hlast.exists_of_endsIn he
  obtain ⟨before, rfl⟩ := hes.exists_used
  have hs : Stops [s] := ⟨s, List.mem_singleton_self s, hstops⟩
  refine ⟨before ++ [s], by simp, hs.append_left before, fun more => .to_phrase ?_⟩
  rw [List.append_assoc]
  show Reads (expandInside (sight (before ++ ([s] ++ more))) kind) (before ++ ([s] ++ more)) more
  rw [sight_behind hs rest more]
  show Reads (expandInside (sight (before ++ s :: rest)) kind) (before ++ ([s] ++ more)) more
  rw [hexpand]
  have hes : Reads es (before ++ ([s] ++ rest)) ([s] ++ rest) := hes
  exact (hes.behind hs more).append (hend more)

end Whole

theorem Stops.ne_nil {ss : List Shape} (h : Stops ss) : ss ≠ [] := by
  rintro rfl
  obtain ⟨s, hs, -⟩ := h
  cases hs

theorem length_lt_append {ss : List Shape} (h : Stops ss) (more : List Shape) :
    more.length < (ss ++ more).length := by
  have := List.length_pos_iff.2 h.ne_nil
  rw [List.length_append]
  omega

/-- **A statement that ends by itself** is read wherever a statement can stand. -/
theorem isStatement_of_reads {role : Role} {ss rest : List Shape} (hsound : Sound ss) (hne : ss ≠ [])
    (hkind : ∀ x hs kind, sight (ss ++ rest) = x :: hs → statementKind? x hs = some kind →
      x.is ";" = true ∨ kind.isWhole = true)
    (h : Reads [.phrase (.statement role)] (ss ++ rest) rest) : IsStatement ss := by
  have hne' : ss ++ rest ≠ [] := List.append_ne_nil_of_left_ne_nil hne _
  rcases h.statement_cases hne' with ⟨w, hss, hw⟩ | ⟨x, hs, kind, hsight, hx, hk, herror, -, hinside⟩
  · have hss : ss ++ rest = [.word w] ++ rest := hss
    obtain rfl := List.append_cancel_right hss
    have hhead : (Shape.word w).head.stops = true := by
      show (w.is ";" || _) = true
      rw [hw, Bool.true_or]
    refine ⟨hsound, ⟨_, List.mem_singleton_self _, hhead⟩, startsConstructorCall_eq_false ?_,
      fun role more _ => .to_phrase ?_⟩
    · intro y hy
      rw [sight_cons, if_pos hhead, List.mem_singleton] at hy
      subst hy
      show w.is "this" = false ∧ w.is "super" = false
      rw [Word.is, Word.is, text_of_is hw]
      decide
    · show Reads (expandStatement role (sight (.word w :: more))) (.word w :: more) more
      rw [sight_cons, expandStatement, if_pos]
      · exact .token .nil
      · exact hw
  · rcases hkind x hs kind hsight hk with hsemicolon | hwhole
    · rw [hx] at hsemicolon
      cases hsemicolon
    · obtain ⟨used, hss, hstops, hreads⟩ := hinside.exists_last hwhole
      obtain rfl := List.append_cancel_right hss
      have hsight' : ∀ more, sight (ss ++ more) = x :: hs := fun more => by
        rw [sight_append hstops, ← hsight, sight_append hstops]
      refine ⟨hsound, hstops, ?_, fun role more _ => ?_⟩
      · -- a label would make a labeled statement of it
        have hself := hsight' []
        rw [List.append_nil] at hself
        rw [hself]
        rw [statementKind?] at hk
        split at hk
        · cases hk
          cases hwhole
        · split at hk
          · cases hk
          · next hgoes =>
            simp only [Bool.or_eq_true, not_or, Bool.not_eq_true] at hgoes
            exact hgoes.2
      · exact .to_statement role (hsight' more) hx hk herror (length_lt_append hstops more)
          (hreads more)

/-- The shapes of a call of another constructor. -/
structure IsCall (ss : List Shape) : Prop where
  sound : Sound ss
  stops : Stops ss
  call : startsConstructorCall (sight ss) = true
  reads : ∀ more, Reads [.node .part .constructorCall] (ss ++ more) more

theorem isCall_of_reads {ss rest : List Shape} (hsound : Sound ss)
    (hcall : startsConstructorCall (sight (ss ++ rest)) = true)
    (h : Reads [.node .part .constructorCall] (ss ++ rest) rest) : IsCall ss := by
  cases h with
  | node hne _ hinside hnil =>
    cases hnil
    obtain ⟨used, hss, hstops, hreads⟩ := hinside.exists_last rfl
    obtain rfl := List.append_cancel_right hss
    rw [sight_append hstops] at hcall
    exact ⟨hsound, hstops, hcall, fun more =>
      .node hne (length_lt_append hstops more) (hreads more) .nil⟩

/-! ### Statements one behind the other -/

/-- Statements one behind the other. -/
inductive Statements : List Shape → Prop
  | nil : Statements []
  | cons {ss rest : List Shape} : IsStatement ss → Statements rest → Statements (ss ++ rest)

theorem IsStatement.quiet {ss : List Shape} (h : IsStatement ss) (more : List Shape) :
    Quiet (ss ++ more) := by
  have hreads := h.reads .part [] quiet_nil
  intro text htext
  obtain ⟨s, behind, rfl⟩ := List.exists_cons_of_ne_nil h.stops.ne_nil
  have hquiet := hreads.quiet text htext
  rw [List.append_nil, starts_sight] at hquiet
  rw [List.cons_append, starts_sight, hquiet]

namespace Statements

variable {ss rest : List Shape}

theorem single (h : IsStatement ss) : Statements ss := by
  rw [← List.append_nil ss]
  exact .cons h .nil

theorem append (h : Statements ss) (h' : Statements rest) : Statements (ss ++ rest) := by
  induction h with
  | nil => exact h'
  | cons hfirst _ ih =>
    rw [List.append_assoc]
    exact .cons hfirst ih

theorem sound (h : Statements ss) : Sound ss := by
  induction h with
  | nil => exact .nil
  | cons hfirst _ ih => exact hfirst.sound.append ih

theorem quiet (h : Statements ss) : Quiet ss := by
  cases h with
  | nil => exact quiet_nil
  | cons hfirst _ => exact hfirst.quiet _

/-- A statement expects something. -/
theorem expandStatement_ne_nil (role : Role) {hs : List Head} (hne : hs ≠ []) :
    expandStatement role hs ≠ [] := by
  obtain ⟨h, hs, rfl⟩ := List.exists_cons_of_ne_nil hne
  rw [expandStatement]
  split
  · exact List.cons_ne_nil _ _
  · split
    · exact List.cons_ne_nil _ _
    · split <;> exact List.cons_ne_nil _ _

theorem reads_many (h : Statements ss) : Reads [.many (.statement .part)] ss [] := by
  induction h with
  | nil => exact .done rfl .nil
  | @cons ss rest hfirst hrest ih =>
    refine .more ?_ (length_lt_append hfirst.stops rest) (hfirst.reads .part rest hrest.quiet).of_phrase
      ih
    refine expandStatement_ne_nil .part ?_
    obtain ⟨s, behind, hss⟩ := List.exists_cons_of_ne_nil hfirst.stops.ne_nil
    rw [hss, List.cons_append, sight_cons]
    exact List.cons_ne_nil _ _

theorem of_stops (h : Statements ss) : ss = [] ∨ Stops ss := by
  cases h with
  | nil => exact .inl rfl
  | cons hfirst _ => exact .inr (hfirst.stops.append_right _)

theorem no_call (h : Statements ss) : startsConstructorCall (sight ss) = false := by
  cases h with
  | nil => rfl
  | cons hfirst _ => rw [sight_append hfirst.stops, hfirst.no_call]

end Statements

/-- What ends with a semicolon or a block is no lone call. -/
theorem isLoneCall_eq_false {ss : List Shape} (h : Stops ss) : isLoneCall (sight ss) = false := by
  have hlast : ∀ hs : List Head, (∃ x ∈ hs, x.stops = true) →
      ((view hs).getLast?.any fun h => h.is "(") = false := by
    intro hs
    induction hs with
    | nil =>
      rintro ⟨x, hx, -⟩
      cases hx
    | cons y hs ih =>
      rintro ⟨x, hx, hstops⟩
      rw [view]
      split
      · next hy =>
        rw [List.getLast?_singleton, Option.any_some]
        rw [Head.stops, Bool.or_eq_true] at hy
        rcases hy with hy | hy <;> rw [Word.is, text_of_is hy] <;> decide
      · next hy =>
        have hmem : x ∈ hs := (List.mem_cons.1 hx).resolve_left fun heq => hy (heq ▸ hstops)
        have hrest := ih ⟨x, hmem, hstops⟩
        cases hview : view hs with
        | nil =>
          -- the view of heads is not empty
          cases hs with
          | nil => cases hmem
          | cons z hs =>
            rw [view] at hview
            split at hview <;> cases hview
        | cons z zs => rw [List.getLast?_cons_cons, ← hview, hrest]
  obtain ⟨s, hs, hstops⟩ := h
  rw [isLoneCall, sight, hlast _ ⟨s.head, List.mem_map_of_mem hs, hstops⟩, Bool.and_false]

theorem Statements.reads {ss : List Shape} (h : Statements ss) :
    Reads [.phrase .statements] ss [] := by
  have hlone : isLoneCall (sight ss) = false := by
    rcases h.of_stops with rfl | hstops
    · rfl
    · exact isLoneCall_eq_false hstops
  refine .to_phrase ?_
  show Reads (if isLoneCall (sight ss) then [.node .part .error] else [.many (.statement .part)]) ss []
  rw [hlone]
  exact h.reads_many

/-- Statements, or statements behind a call of another constructor, are what a constructor can hold. -/
theorem Statements.reads_constructor {ss : List Shape} (h : Statements ss) :
    Reads [.phrase .constructorStatements] ss [] := by
  refine .to_phrase ?_
  show Reads (if startsConstructorCall (sight ss) then _ else [.phrase .statements]) ss []
  rw [h.no_call]
  exact h.reads

theorem IsCall.reads_constructor {call ss : List Shape} (hcall : IsCall call) (h : Statements ss) :
    Reads [.phrase .constructorStatements] (call ++ ss) [] := by
  refine .to_phrase ?_
  show Reads (if startsConstructorCall (sight (call ++ ss)) then
    [.node .part .constructorCall, .many (.statement .part)] else _) (call ++ ss) []
  rw [sight_append hcall.stops, hcall.call]
  exact (hcall.reads ss).append h.reads_many

/-! ### Blocks -/

section Blocks

variable {ss more : List Shape}

theorem head_blockShape (ss : List Shape) : (blockShape ss).head = ⟨symbolWord '{', false⟩ := rfl

theorem stops_blockShape (ss : List Shape) : Stops [blockShape ss] :=
  ⟨_, List.mem_singleton_self _, rfl⟩

theorem sight_blockShape (ss more : List Shape) :
    sight (blockShape ss :: more) = [⟨symbolWord '{', false⟩] := by
  rw [sight_cons, head_blockShape]
  rfl

theorem Statements.reads_block (h : Statements ss) (role : Role) (more : List Shape) :
    Reads [.node role .block] (blockShape ss :: more) more :=
  .node (by decide) (Nat.lt_succ_self _) (.to_phrase (.group rfl h.reads .nil)) .nil

theorem Statements.isStatement_block (h : Statements ss) : IsStatement [blockShape ss] where
  sound := sound_blockShape h.sound .nil
  stops := stops_blockShape ss
  no_call := rfl
  reads role more _ := by
    refine .to_phrase ?_
    show Reads (expandStatement role (sight (blockShape ss :: more))) (blockShape ss :: more) more
    rw [sight_blockShape]
    exact h.reads_block role more

theorem IsStatement.reads_branch (h : IsStatement ss) (role : Role) (hmore : Quiet more) :
    Reads [.phrase (.branch role)] (ss ++ more) more := by
  obtain ⟨s, behind, hss⟩ := List.exists_cons_of_ne_nil h.stops.ne_nil
  refine .to_phrase ?_
  show Reads (if (sight (ss ++ more)).isEmpty then _ else [.phrase (.statement role)]) _ _
  rw [if_neg]
  · exact h.reads role more hmore
  · rw [hss, List.cons_append, sight_cons]
    exact Bool.false_ne_true

theorem Statements.reads_branch (h : Statements ss) (role : Role) (more : List Shape) :
    Reads [.phrase (.branch role)] (blockShape ss :: more) more := by
  have hexpand : (Phrase.branch role).expand (sight (blockShape ss :: more)) =
      [.phrase (.statement role)] := by
    rw [sight_blockShape]
    rfl
  refine .to_phrase ?_
  rw [hexpand]
  refine .to_phrase ?_
  show Reads (expandStatement role (sight (blockShape ss :: more))) (blockShape ss :: more) more
  rw [sight_blockShape]
  exact h.reads_block role more

end Blocks

/-! ### Conditions, headers and handlers -/

/-- Parentheses with contents that are read. -/
def Parenthesized (s : Shape) : Prop :=
  ∃ o inner c, s = .group o inner c ∧ o.is "(" = true ∧ Sound [s] ∧
    Reads [.phrase .contents] inner []

/-- A word of a statement, which stands for itself. -/
structure IsWord (text : String) (w : Word) : Prop where
  is : w.is text = true
  sound : Sound [.word w]

section Heads

variable {text : String} {w v e : Word} {s : Shape} {ss more : List Shape} {kind : NodeKind}
  {role : Role}

namespace Parenthesized

variable (h : Parenthesized s)
include h

theorem sound : Sound [s] := by
  obtain ⟨o, inner, c, -, -, hsound, -⟩ := h
  exact hsound

theorem head_is : s.head.is "(" = true := by
  obtain ⟨o, inner, c, rfl, ho, -⟩ := h
  exact ho

theorem stops_eq : s.head.stops = false := by
  have htext := text_of_is h.head_is
  rw [Head.stops, Word.is, Word.is, htext]
  decide

theorem reads_group (more : List Shape) : Reads [.group "(" .contents] (s :: more) more := by
  obtain ⟨o, inner, c, rfl, ho, -, hinner⟩ := h
  exact .group ho hinner .nil

theorem reads_node (role : Role) (more : List Shape) :
    Reads [.node role .parentheses] (s :: more) more :=
  .node (by decide) (Nat.lt_succ_self _) (.to_phrase (h.reads_group more)) .nil

end Parenthesized

theorem reads_next (w : Word) (more : List Shape) : Reads [.next] (.word w :: more) more := .token .nil

theorem reads_semicolon (he : e.is ";" = true) (more : List Shape) :
    Reads [.phrase .semicolon] (.word e :: more) more := by
  refine .to_phrase ?_
  show Reads (if starts ";" (sight (.word e :: more)) then [.next] else [.missing ";"]) _ _
  rw [if_pos (starts_sight _ _ _ ▸ he)]
  exact reads_next e more

/-- A statement with a header in parentheses, or a handler. -/
theorem reads_headed (hkind : kind ∈ [.whileStatement, .forStatement, .forEachStatement,
      .synchronizedStatement, .catchClause]) (w : Word) (hs : Parenthesized s) (hss : Statements ss)
    (more : List Shape) :
    Reads [.phrase (.inside kind)] (.word w :: s :: blockShape ss :: more) more := by
  have hblock : Reads [.next, .group "(" .contents, .node .body .block]
      (.word w :: s :: blockShape ss :: more) more :=
    (reads_next w _).append ((hs.reads_group _).append (hss.reads_block .body more))
  have hbranch : Reads [.next, .group "(" .contents, .phrase (.branch .body)]
      (.word w :: s :: blockShape ss :: more) more :=
    (reads_next w _).append ((hs.reads_group _).append (hss.reads_branch .body more))
  simp only [List.mem_cons, List.not_mem_nil, or_false] at hkind
  rcases hkind with rfl | rfl | rfl | rfl | rfl
  · exact .to_phrase ((reads_next w _).append
      ((hs.reads_node .condition _).append (hss.reads_branch .body more)))
  · exact .to_phrase hbranch
  · exact .to_phrase hbranch
  · exact .to_phrase hblock
  · exact .to_phrase hblock

/-- A statement that starts with a keyword. -/
theorem isStatement_keyword {behind : List Shape} {hs : List Head}
    (hsound : Sound (.word w :: behind)) (hstops : Stops (.word w :: behind))
    (hsight : sight (.word w :: behind) = ⟨w, false⟩ :: hs)
    (hkeyword : keywordStatement? ⟨w, false⟩ hs = some kind) (hne : kind ≠ .error)
    (hcall : ∀ x ∈ hs, x.is "this" = false ∧ x.is "super" = false)
    (h : ∀ more, Quiet more → Reads [.phrase (.inside kind)] (.word w :: (behind ++ more)) more) :
    IsStatement (.word w :: behind) := by
  have hall : ∀ text ∈ "for" :: "synchronized" :: Phrase.keywordStatements.map Prod.fst,
      (text == "this") = false ∧ (text == "super") = false := by
    decide
  have hfirst := hall w.text (text_of_keywordStatement? hkeyword)
  have hno : startsConstructorCall (⟨w, false⟩ :: hs) = false :=
    startsConstructorCall_eq_false (List.forall_mem_cons.2 ⟨hfirst, hcall⟩)
  obtain ⟨hkind, hsemicolon⟩ := statementKind?_keyword hkeyword hno
  refine ⟨hsound, hstops, by rw [hsight, hno], fun role more hmore => ?_⟩
  have hsight' : sight (.word w :: behind ++ more) = ⟨w, false⟩ :: hs := by
    rw [sight_append hstops, hsight]
  exact .to_statement role hsight' hsemicolon hkind hne (length_lt_append hstops more) (h more hmore)

theorem IsWord.stops_eq (hw : IsWord text w) (htext : (text == ";") = false)
    (hbrace : (text == leftBrace) = false) : (Shape.word w).head.stops = false := by
  show (w.is ";" || w.is leftBrace) = false
  rw [Word.is, Word.is, text_of_is hw.is, htext, hbrace]
  rfl

theorem sound_cons {s : Shape} {ss : List Shape} (h : Sound [s]) (h' : Sound ss) : Sound (s :: ss) :=
  h.append h'

/-- What is seen of a keyword, parentheses and a block. -/
theorem sight_headed (hw : (Shape.word w).head.stops = false) (hs : Parenthesized s)
    (ss more : List Shape) : sight (.word w :: s :: blockShape ss :: more) =
      [⟨w, false⟩, s.head, ⟨symbolWord '{', false⟩] := by
  rw [sight_cons, hw, sight_cons, hs.stops_eq, sight_blockShape]
  rfl

theorem no_call_headed (hs : Parenthesized s) : ∀ x ∈ [s.head, ⟨symbolWord '{', false⟩],
    x.is "this" = false ∧ x.is "super" = false := by
  refine List.forall_mem_cons.2 ⟨?_, List.forall_mem_singleton.2 ⟨rfl, rfl⟩⟩
  rw [Word.is, Word.is, text_of_is hs.head_is]
  decide

/-- A loop with its header in front, or `synchronized`. -/
theorem isStatement_headed (hw : Sound [.word w]) (hs : Parenthesized s) (hss : Statements ss)
    (hkind : kind ∈ [.whileStatement, .forStatement, .forEachStatement, .synchronizedStatement])
    (hkeyword : keywordStatement? ⟨w, false⟩ [s.head, ⟨symbolWord '{', false⟩] = some kind) :
    IsStatement [.word w, s, blockShape ss] := by
  have hall : ∀ text ∈ "for" :: "synchronized" :: Phrase.keywordStatements.map Prod.fst,
      (text == ";") = false ∧ (text == leftBrace) = false := by
    decide
  obtain ⟨h₁, h₂⟩ := hall w.text (text_of_keywordStatement? hkeyword)
  have hself : IsWord w.text w := ⟨beq_self_eq_true _, hw⟩
  have hstops := hself.stops_eq h₁ h₂
  have hheaded : kind ∈ [.whileStatement, .forStatement, .forEachStatement, .synchronizedStatement,
      .catchClause] := List.mem_append_left [NodeKind.catchClause] hkind
  have hne : kind ≠ .error := by
    rintro rfl
    exact absurd hkind (by decide)
  exact isStatement_keyword (sound_cons hw (sound_cons hs.sound (sound_blockShape hss.sound .nil)))
    ((stops_blockShape ss).append_left [.word w, s]) (sight_headed hstops hs ss []) hkeyword hne
    (no_call_headed hs) fun more _ => reads_headed hheaded w hs hss more

/-- A `do` loop with its condition. -/
theorem isStatement_do (hw : IsWord "do" w) (hss : Statements ss) (hv : IsWord "while" v)
    (hs : Parenthesized s) (he : IsWord ";" e) :
    IsStatement [.word w, blockShape ss, .word v, s, .word e] := by
  have hsight : sight [.word w, blockShape ss, .word v, s, .word e] =
      [⟨w, false⟩, ⟨symbolWord '{', false⟩] := by
    rw [sight_cons, hw.stops_eq (by decide) (by decide), sight_blockShape]
    rfl
  have hkeyword : keywordStatement? ⟨w, false⟩ [⟨symbolWord '{', false⟩] = some .doStatement := by
    unfold keywordStatement?
    simp only [Word.is, text_of_is hw.is]
    rfl
  refine isStatement_keyword (sound_cons hw.sound (sound_blockShape hss.sound
    (sound_cons hv.sound (sound_cons hs.sound he.sound)))) ((stops_blockShape ss).append_left
      [.word w] |>.append_right [.word v, s, .word e]) hsight hkeyword (by decide)
    (List.forall_mem_singleton.2 ⟨rfl, rfl⟩) fun more _ => .to_phrase ?_
  have hcondition : Reads [.phrase .doCondition] (.word v :: s :: .word e :: more) more := by
    refine .to_phrase ?_
    show Reads (if starts "while" (sight (.word v :: s :: .word e :: more)) then
      [.next, .node .condition .parentheses, .phrase .semicolon] else _) _ _
    rw [if_pos (starts_sight _ _ _ ▸ hv.is)]
    exact (reads_next v _).append ((hs.reads_node .condition _).append (reads_semicolon he.is more))
  exact (reads_next w _).append ((hss.reads_branch .body _).append hcondition)

/-- A conditional, with another statement behind its `else` or without one. -/
theorem isStatement_if {alternative : List Shape} (hw : IsWord "if" w) (hs : Parenthesized s)
    (hss : Statements ss) (halternative : alternative = [] ∨ ∃ e ts, alternative = .word e :: ts ∧
      IsWord "else" e ∧ IsStatement ts) :
    IsStatement (.word w :: s :: blockShape ss :: alternative) := by
  have hsound : Sound alternative := by
    rcases halternative with rfl | ⟨e, ts, rfl, he, hts⟩
    · exact .nil
    · exact sound_cons he.sound hts.sound
  have hkeyword : keywordStatement? ⟨w, false⟩ [s.head, ⟨symbolWord '{', false⟩] =
      some .ifStatement := by
    unfold keywordStatement?
    simp only [Word.is, text_of_is hw.is]
    rfl
  refine isStatement_keyword (sound_cons hw.sound (sound_cons hs.sound
    (sound_blockShape hss.sound hsound))) ((stops_blockShape ss).append_left [.word w, s]
      |>.append_right alternative)
    (sight_headed (hw.stops_eq (by decide) (by decide)) hs ss alternative) hkeyword (by decide)
    (no_call_headed hs) fun more hmore => .to_phrase ?_
  have hlast : Reads [.phrase .alternative] (alternative ++ more) more := by
    refine .to_phrase ?_
    show Reads (if starts "else" (sight (alternative ++ more)) then
      [.next, .phrase (.branch .alternative)] else []) _ _
    rcases halternative with rfl | ⟨e, ts, rfl, he, hts⟩
    · rw [List.nil_append, hmore "else" (by decide)]
      exact .nil
    · rw [List.cons_append, if_pos (starts_sight _ _ _ ▸ he.is)]
      exact (reads_next e _).append (hts.reads_branch .alternative hmore)
  exact (reads_next w _).append ((hs.reads_node .condition _).append
    ((hss.reads_branch .consequence _).append hlast))

/-! ### Handlers -/

/-- The handlers of a `try`. -/
inductive Handlers : List Shape → Prop
  | nil : Handlers []
  | final {w : Word} {ss : List Shape} : IsWord "finally" w → Statements ss →
      Handlers [.word w, blockShape ss]
  | clause {w : Word} {s : Shape} {ss rest : List Shape} : IsWord "catch" w → Parenthesized s →
      Statements ss → Handlers rest → Handlers (.word w :: s :: blockShape ss :: rest)

theorem Handlers.sound {hs : List Shape} (h : Handlers hs) : Sound hs := by
  induction h with
  | nil => exact .nil
  | final hw hss => exact sound_cons hw.sound (sound_blockShape hss.sound .nil)
  | clause hw hs hss _ ih =>
    exact sound_cons hw.sound (sound_cons hs.sound (sound_blockShape hss.sound ih))

theorem reads_finallyHandler (hw : IsWord "finally" w) (hss : Statements ss) (more : List Shape) :
    Reads [.phrase .finallyHandler] (.word w :: blockShape ss :: more) more := by
  refine .to_phrase ?_
  show Reads (if starts "finally" (sight (.word w :: blockShape ss :: more)) then
    [.node .part .finallyClause] else []) _ _
  rw [if_pos (starts_sight _ _ _ ▸ hw.is)]
  exact .node (by decide) (by simp) (.to_phrase ((reads_next w _).append
    (hss.reads_block .body more))) .nil

theorem Handlers.reads {hs : List Shape} (h : Handlers hs) (hmore : Quiet more) :
    Reads [.many .catchHandler, .phrase .finallyHandler] (hs ++ more) more := by
  have hexpand : ∀ ss, Phrase.catchHandler.expand (sight ss) =
      if starts "catch" (sight ss) then [.node .part .catchClause] else [] := fun _ => rfl
  induction h with
  | nil =>
    refine .done ?_ (.to_phrase ?_)
    · rw [List.nil_append, hexpand, hmore "catch" (by decide)]
      rfl
    · show Reads (if starts "finally" (sight more) then _ else []) _ _
      rw [hmore "finally" (by decide)]
      exact .nil
  | @final w ss hw hss =>
    refine .done ?_ (reads_finallyHandler hw hss more)
    have hno : (Shape.word w).head.is "catch" = false := by
      show w.is "catch" = false
      rw [Word.is, text_of_is hw.is]
      decide
    rw [List.cons_append, hexpand, starts_sight, hno]
    rfl
  | @clause w s ss rest hw hs hss _ ih =>
    have hcatch : Phrase.catchHandler.expand
        (sight (.word w :: s :: blockShape ss :: rest ++ more)) = [.node .part .catchClause] := by
      rw [hexpand]
      exact if_pos (starts_sight _ _ _ ▸ hw.is)
    have hlt : (rest ++ more).length < (.word w :: s :: blockShape ss :: rest ++ more).length := by
      simp
      omega
    refine .more ?_ hlt ?_ ih
    · rw [hcatch]
      exact List.cons_ne_nil _ _
    · rw [hcatch]
      exact .node (by decide) hlt (reads_headed (by decide) w hs hss (rest ++ more)) .nil

/-- The handlers of a `try`, which needs some unless it has resources. -/
theorem Handlers.reads_handlers {hs : List Shape} (h : Handlers hs) {resources : Bool}
    (hne : resources = true ∨ hs ≠ []) (hmore : Quiet more) :
    Reads [.phrase (.handlers resources)] (hs ++ more) more := by
  have hreads := h.reads hmore
  refine .to_phrase ?_
  show Reads (if starts "catch" (sight (hs ++ more)) then [.many .catchHandler, .phrase .finallyHandler]
    else if starts "finally" (sight (hs ++ more)) then [.phrase .finallyHandler]
    else if resources then [] else _) _ _
  cases h with
  | nil =>
    obtain rfl : resources = true := hne.resolve_right fun h => h rfl
    rw [List.nil_append, hmore "catch" (by decide), hmore "finally" (by decide)]
    exact .nil
  | @final w ss hw hss =>
    have hno : (Shape.word w).head.is "catch" = false := by
      show w.is "catch" = false
      rw [Word.is, text_of_is hw.is]
      decide
    rw [List.cons_append, starts_sight, hno, starts_sight, if_neg Bool.false_ne_true]
    rw [if_pos]
    · exact reads_finallyHandler hw hss more
    · exact hw.is
  | @clause w s ss rest hw hs hss hrest =>
    rw [List.cons_append, starts_sight, if_pos]
    · exact hreads
    · exact hw.is

/-- A `try` without resources. -/
theorem isStatement_try {hs : List Shape} (hw : IsWord "try" w) (hss : Statements ss)
    (h : Handlers hs) (hne : hs ≠ []) : IsStatement (.word w :: blockShape ss :: hs) := by
  have hsight : ∀ more, sight (.word w :: blockShape ss :: more) =
      [⟨w, false⟩, ⟨symbolWord '{', false⟩] := by
    intro more
    rw [sight_cons, hw.stops_eq (by decide) (by decide), sight_blockShape]
    rfl
  have hkeyword : keywordStatement? ⟨w, false⟩ [⟨symbolWord '{', false⟩] = some .tryStatement := by
    unfold keywordStatement?
    simp only [Word.is, text_of_is hw.is]
    rfl
  refine isStatement_keyword (sound_cons hw.sound (sound_blockShape hss.sound h.sound))
    ((stops_blockShape ss).append_left [.word w] |>.append_right hs) (hsight hs) hkeyword (by decide)
    (List.forall_mem_singleton.2 ⟨rfl, rfl⟩) fun more hmore => .to_phrase ?_
  have hexpand :
      (Phrase.inside .tryStatement).expand (sight (.word w :: (blockShape ss :: hs ++ more))) =
      [.next, .node .body .block, .phrase (.handlers false)] := by
    rw [List.cons_append, hsight]
    rfl
  rw [hexpand]
  exact (reads_next w _).append ((hss.reads_block .body _).append
    (h.reads_handlers (.inr hne) hmore))

/-- A `try` with resources. -/
theorem isStatement_resources {hs : List Shape} (hw : IsWord "try" w) (hr : Parenthesized s)
    (hss : Statements ss) (h : Handlers hs) :
    IsStatement (.word w :: s :: blockShape ss :: hs) := by
  have hstops := hw.stops_eq (by decide) (by decide)
  have hkeyword : keywordStatement? ⟨w, false⟩ [s.head, ⟨symbolWord '{', false⟩] =
      some .tryStatement := by
    unfold keywordStatement?
    simp only [Word.is, text_of_is hw.is]
    rfl
  refine isStatement_keyword (sound_cons hw.sound (sound_cons hr.sound
    (sound_blockShape hss.sound h.sound))) ((stops_blockShape ss).append_left [.word w, s]
      |>.append_right hs) (sight_headed hstops hr ss hs) hkeyword (by decide) (no_call_headed hr)
    fun more hmore => .to_phrase ?_
  have hexpand : (Phrase.inside .tryStatement).expand
      (sight (.word w :: (s :: blockShape ss :: hs ++ more))) =
        [.next, .group "(" .contents, .node .body .block, .phrase (.handlers true)] := by
    rw [List.cons_append, List.cons_append, sight_headed hstops hr]
    show (if s.head.is "(" then _ else _) = _
    rw [if_pos hr.head_is]
  rw [hexpand]
  exact (reads_next w _).append ((hr.reads_group _).append ((hss.reads_block .body _).append
    (h.reads_handlers (.inl rfl) hmore)))

/-! ### Labels -/

/-- The word can be a label, and is no symbol. -/
structure IsLabel (w : Word) : Prop where
  name : w.isName = true
  sound : Sound [.word w]
  symbol : ∀ text ∈ [";", leftBrace, "<"], w.is text = false

/-- A statement with a label, which calls no constructor. -/
theorem isStatement_labeled (hw : IsLabel w) (hv : IsWord ":" v) (h : IsStatement ss) :
    IsStatement (.word w :: .word v :: ss) := by
  have hsymbol := hw.symbol
  simp only [List.forall_mem_cons] at hsymbol
  obtain ⟨hsemicolon, hbrace, hangle, -⟩ := hsymbol
  have hstops : (Shape.word w).head.stops = false := by
    show (w.is ";" || w.is leftBrace) = false
    rw [hsemicolon, hbrace]
    rfl
  have hsight : ∀ more, sight (.word w :: .word v :: ss ++ more) =
      ⟨w, false⟩ :: ⟨v, false⟩ :: sight (ss ++ more) := by
    intro more
    rw [List.cons_append, List.cons_append, sight_cons, hstops, sight_cons,
      hv.stops_eq (by decide) (by decide)]
    rfl
  have hself := hsight []
  rw [List.append_nil, List.append_nil] at hself
  refine ⟨sound_cons hw.sound (sound_cons hv.sound h.sound), h.stops.append_left [.word w, .word v], ?_,
    fun role more hmore => ?_⟩
  · have harguments : afterTypeArguments (⟨w, false⟩ :: ⟨v, false⟩ :: sight ss) =
        ⟨w, false⟩ :: ⟨v, false⟩ :: sight ss := by
      unfold afterTypeArguments
      exact if_neg (by simp [starts, hangle])
    have hcolon : v.is ";" = false := by
      rw [Word.is, text_of_is hv.is]
      decide
    rw [hself, startsConstructorCall, harguments]
    simp [hsemicolon, hcolon, hv.is]
  · have hkind : statementKind? ⟨w, false⟩ (⟨v, false⟩ :: sight (ss ++ more)) =
        some .labeledStatement := by
      rw [statementKind?, if_pos]
      rw [hw.name, Bool.true_and]
      exact hv.is
    refine .to_statement role (hsight more) hsemicolon hkind (by decide) ?_ (.to_phrase ?_)
    · simp
      omega
    · show Reads [.token .name, .next, .phrase (.branch .body)] _ more
      exact .token ((reads_next v _).append (h.reads_branch .body hmore))

end Heads

end BranchExclusion.Java
