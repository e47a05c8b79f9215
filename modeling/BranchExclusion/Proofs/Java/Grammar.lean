import BranchExclusion.Proofs.Java.Derivation

/-!
# The parts of nodes

* `NodeKind.Takes`: the parts that a node may have;
* `Phrase.fits_expandInside`, `Phrase.fits_expand`: the grammar puts every symbol in its place;
* `Derives.takes`: so derived nodes have such parts;
* `Derives.countFinally_try`: a `try` has at most one `finally`.
-/

namespace BranchExclusion.Java

/-! ### The parts of a node -/

namespace NodeKind

/-- Statements in braces. -/
def isBraced : NodeKind → Bool
  | block | constructorBody => true
  | _ => false

/-- The body of such a node is in braces. -/
def isCallable : NodeKind → Bool
  | method | constructor | compactConstructor | staticInitializer | lambda => true
  | _ => false

/-- A handler of a `try`. -/
def isHandler : NodeKind → Bool
  | catchClause | finallyClause => true
  | _ => false

/-- A node of this kind may have a leaf, or a node of the kind `inner`, as a part with that role. -/
def Takes (outer : NodeKind) (role : Role) (inner : Option NodeKind) : Prop :=
  role = .body → (outer.isCallable = true → inner.any isBraced = true) ∧
    inner.any isHandler = false

end NodeKind

namespace Phrase

variable {kind : NodeKind} {hs : List Head}

/-- The phrase gives no body, or one in braces. -/
def inCallable : Phrase → Bool
  | unit | contents | piece | elements | element | semicolon | methodEnd _ | lambdaBody => true
  | _ => false

/-- What a node as a whole consists of is no part of another node. -/
def isInside : Phrase → Bool
  | inside _ => true
  | _ => false

/-- The phrase may give a `finally`. -/
def givesFinally : Phrase → Bool
  | handlers _ | finallyHandler => true
  | _ => false

/-- The phrase may stand in a node. The body of the node may have to be in braces, which `callable`
says, and there may be no place for a `finally`, which `closed` says. -/
def fits (callable closed : Bool) (p : Phrase) : Bool :=
  !p.isInside && (!callable || p.inCallable) && (!closed || !p.givesFinally)

end Phrase

/-- The symbol may stand in such a node. -/
def Symbol.fits (callable closed : Bool) : Symbol → Bool
  | .token role => !callable || decide (role ≠ .body)
  | .node role kind =>
    (!callable || decide (role ≠ .body) || kind.isBraced) &&
      (!kind.isHandler || decide (role ≠ .body)) && (!closed || decide (kind ≠ .finallyClause))
  | .raw _ | .missing _ | .unfit _ => true
  | .phrase p | .many p | .group _ p => p.fits callable closed

namespace Phrase

/-- Kinds of statements that start with a keyword. -/
def keywordKinds : List NodeKind :=
  [.forStatement, .forEachStatement, .synchronizedStatement] ++ keywordStatements.map Prod.snd

/-- Kinds of declared types. -/
def declaredKinds : List NodeKind :=
  [.annotationDeclaration, .classDeclaration, .interfaceDeclaration, .enumDeclaration,
    .recordDeclaration]

theorem mem_of_keywordStatement? {x : Head} (h : keywordStatement? x hs = some kind) :
    kind ∈ keywordKinds := by
  unfold keywordStatement? at h
  split at h
  · split at h <;> cases h <;> decide
  · split at h
    · cases h
      decide
    · obtain ⟨before, after, hsplit, -⟩ := List.lookup_eq_some_iff.1 h
      have hmem : (x.text, kind) ∈ keywordStatements := by rw [hsplit]; simp
      exact List.mem_append_right _ (List.mem_map_of_mem hmem)

theorem mem_of_declared? {lead : ℕ} (h : declared? hs = some (kind, lead)) :
    kind ∈ declaredKinds := by
  unfold declared? at h
  dsimp only at h
  split_ifs at h <;> cases h <;> decide

/-- A statement starts with a label, a brace or a keyword, or declares a type, or is simple. -/
theorem statementKind?_cases {x : Head} (h : statementKind? x hs = some kind) :
    (kind = .labeledStatement ∧ x.isName = true ∧ starts ":" hs = true) ∨ kind = .block ∨
      keywordStatement? x hs = some kind ∨ (∃ lead, declared? (x :: hs) = some (kind, lead)) ∨
        kind = .simpleStatement := by
  rw [statementKind?] at h
  split at h
  · next hlabel =>
    cases h
    exact .inl ⟨rfl, (Bool.and_eq_true ..).mp hlabel⟩
  · split at h
    · cases h
    · split at h
      · cases h
        exact .inr (.inl rfl)
      · split at h
        · next hkeyword =>
          cases h
          exact .inr (.inr (.inl hkeyword))
        · split at h
          · next hdeclared =>
            cases h
            exact .inr (.inr (.inr (.inl ⟨_, hdeclared⟩)))
          · cases h
            exact .inr (.inr (.inr (.inr rfl)))

theorem isHandler_of_declared? {lead : ℕ} (h : declared? hs = some (kind, lead)) :
    kind.isHandler = false := by
  have hall : ∀ k ∈ declaredKinds, k.isHandler = false := by decide
  exact hall kind (mem_of_declared? h)

/-- No statement starts with a handler. -/
theorem isHandler_of_statementKind? {x : Head} (h : statementKind? x hs = some kind) :
    kind.isHandler = false := by
  have hall : ∀ k ∈ keywordKinds, k.isHandler = false := by decide
  rcases statementKind?_cases h with ⟨rfl, -⟩ | rfl | hkeyword | ⟨lead, hdeclared⟩ | rfl
  · rfl
  · rfl
  · exact hall kind (mem_of_keywordStatement? hkeyword)
  · exact isHandler_of_declared? hdeclared
  · rfl

variable {callable closed : Bool}

theorem all_ite {c : Prop} [Decidable c] {f : Symbol → Bool} {yes no : List Symbol}
    (hyes : yes.all f = true) (hno : no.all f = true) : (if c then yes else no).all f = true := by
  split
  · exact hyes
  · exact hno

theorem fits_node (hkind : kind.isHandler = false) (role : Role) :
    [Symbol.node role kind].all (Symbol.fits false closed) = true := by
  have hne : kind ≠ .finallyClause := by
    rintro rfl
    cases hkind
  simp [Symbol.fits, hkind, hne]

theorem fits_expandStatement (role : Role) :
    (expandStatement role hs).all (Symbol.fits false closed) = true := by
  cases hs with
  | nil => rfl
  | cons h rest =>
    refine all_ite rfl ?_
    split
    · next hkind => exact fits_node (isHandler_of_statementKind? hkind) role
    · exact all_ite (fits_node rfl role) rfl

theorem fits_expandUnit : (expandUnit hs).all (Symbol.fits callable closed) = true := by
  cases hs with
  | nil => rfl
  | cons h rest =>
    rw [expandUnit]
    cases callable <;> cases closed <;> repeat' first | rfl | apply all_ite

theorem fits_expandItem : (expandItem hs).all (Symbol.fits false closed) = true := by
  refine all_ite rfl (all_ite (fits_node rfl _) ?_)
  split
  · next kind lead hkind => exact fits_node (isHandler_of_declared? hkind) _
  · exact all_ite (fits_node rfl _) (by cases closed <;> rfl)

theorem fits_expandMember : (expandMember hs).all (Symbol.fits false closed) = true := by
  refine all_ite rfl (all_ite rfl (all_ite (fits_node rfl _) (all_ite rfl
    (all_ite (fits_node rfl _) ?_))))
  split
  · next hkind => exact fits_node (isHandler_of_declared? hkind) _
  all_goals exact fits_node rfl _

theorem fits_expandConstant : (expandConstant hs).all (Symbol.fits false closed) = true :=
  all_ite rfl (all_ite rfl (all_ite (fits_node rfl _) (all_ite (fits_node rfl _) rfl)))

theorem fits_expandCase : (case.expand hs).all (Symbol.fits false closed) = true := by
  refine all_ite ?_ (fits_expandStatement .part)
  split <;> rfl

/-- What a phrase consists of may stand where the phrase may stand. -/
theorem fits_expand {p : Phrase} (hp : p.fits callable closed = true) (hs : List Head) :
    (p.expand hs).all (Symbol.fits callable closed) = true := by
  cases p with
  | inside kind => cases hp
  | unit => exact fits_expandUnit
  | contents => cases callable <;> cases closed <;> exact all_ite rfl rfl
  | piece =>
    cases callable <;> cases closed <;>
      exact all_ite rfl (all_ite (all_ite rfl rfl) fits_expandUnit)
  | elements => cases callable <;> cases closed <;> rfl
  | element => cases callable <;> cases closed <;> exact all_ite rfl fits_expandUnit
  | semicolon => cases callable <;> cases closed <;> exact all_ite rfl rfl
  | methodEnd constructor =>
    cases callable <;> cases closed <;> cases constructor <;> exact all_ite rfl (all_ite rfl rfl)
  | lambdaBody => cases callable <;> cases closed <;> exact all_ite rfl (all_ite rfl rfl)
  | item | member | constant | case | statement role =>
    -- these stand in no node with a body in braces
    obtain rfl : callable = false := by
      cases callable
      · rfl
      · cases hp
    first
      | exact fits_expandItem
      | exact fits_expandMember
      | exact fits_expandConstant
      | exact fits_expandCase
      | exact fits_expandStatement _
  | _ =>
    obtain rfl : callable = false := by
      cases callable
      · rfl
      · cases closed <;> cases hp
    cases closed <;> first
      | rfl
      | exact absurd hp Bool.false_ne_true
      | exact all_ite rfl rfl
      | exact all_ite rfl (all_ite rfl (all_ite rfl rfl))

/-- What a node consists of may stand in it. -/
theorem fits_expandInside (hs : List Head) (k : NodeKind) :
    (expandInside hs k).all (Symbol.fits k.isCallable false) = true := by
  cases k with
  | tryStatement => exact all_ite rfl rfl
  | typeName => exact all_ite rfl rfl
  | enumConstant =>
    unfold expandInside
    dsimp only
    rw [List.all_append, List.all_append, all_ite rfl rfl]
    rfl
  | _ => rfl

end Phrase

/-- What may stand in a node gives parts that the node takes. -/
theorem Symbol.gives_of_fits {k : NodeKind} {closed : Bool} {s : Symbol}
    (h : s.fits k.isCallable closed = true) :
    s.Gives (fun role kind => k.Takes role kind ∧ (closed = true → kind ≠ some .finallyClause))
      (fun p => p.fits k.isCallable closed = true) := by
  cases s with
  | token role =>
    simp only [fits, Bool.or_eq_true, Bool.not_eq_true', decide_eq_true_eq] at h
    refine ⟨fun hbody => ⟨fun hk => ?_, rfl⟩, fun _ => by simp⟩
    rcases h with h | h
    · rw [h] at hk
      cases hk
    · exact absurd hbody h
  | node role kind =>
    simp only [fits, Bool.and_eq_true, Bool.or_eq_true, Bool.not_eq_true', decide_eq_true_eq] at h
    obtain ⟨⟨hbraced, hhandler⟩, hfinally⟩ := h
    refine ⟨fun hbody => ⟨fun hk => ?_, ?_⟩, fun hclosed => ?_⟩
    · rcases hbraced with (h | h) | h
      · rw [h] at hk
        cases hk
      · exact absurd hbody h
      · exact h
    · exact hhandler.resolve_right fun h => h hbody
    · rw [Ne, Option.some.injEq]
      exact hfinally.resolve_left (by simp [hclosed])
  | raw n => trivial
  | missing what => trivial
  | unfit role => trivial
  | phrase p => exact h
  | many p => exact h
  | group opening p => exact h

/-- Symbols that may stand in a node give parts that it takes. -/
theorem Derives.takes {k : NodeKind} {closed : Bool} {ss : List Symbol} {cs rest : List Chunk}
    {parts : Parts} (h : Derives ss cs parts rest)
    (hss : ss.all (Symbol.fits k.isCallable closed) = true) :
    ∀ p ∈ parts, k.Takes p.1 p.2.kind? ∧ (closed = true → p.2.kind? ≠ some .finallyClause) := by
  refine h.forall_parts
    (Q := fun role kind => k.Takes role kind ∧ (closed = true → kind ≠ some .finallyClause))
    (S := fun p => p.fits k.isCallable closed = true) ⟨fun h => (nomatch h), fun _ => by simp⟩
    (fun p hp hs s hmem => ?_) fun s hmem => ?_
  · exact Symbol.gives_of_fits (List.all_eq_true.1 (Phrase.fits_expand hp hs) s hmem)
  · exact Symbol.gives_of_fits (List.all_eq_true.1 hss s hmem)

theorem Derives.takes_inside {k : NodeKind} {cs rest : List Chunk} {parts : Parts}
    (h : Derives [.phrase (.inside k)] cs parts rest) : ∀ p ∈ parts, k.Takes p.1 p.2.kind? :=
  fun p hp => ((derives_phrase h).takes (Phrase.fits_expandInside _ k) p hp).1

/-! ### The handlers of a `try` -/

namespace Tree

theorem isNode_eq (kind : NodeKind) (t : Tree) : t.isNode kind = (t.kind? == some kind) := by
  cases t <;> rfl

theorem isHandler_eq (t : Tree) : t.isHandler = t.kind?.any NodeKind.isHandler := by
  cases t with
  | leaf => rfl
  | node kind => cases kind <;> rfl

end Tree

section Finally

variable {ss : List Symbol} {cs rest : List Chunk} {parts : Parts}

/-- How many of the parts are a `finally`. -/
def countFinally (parts : Parts) : ℕ := parts.countP fun p => p.2.isNode .finallyClause

theorem Derives.countFinally_eq_zero (h : Derives ss cs parts rest)
    (hss : ss.all (Symbol.fits false true) = true) : countFinally parts = 0 := by
  refine List.countP_eq_zero.2 fun p hp => ?_
  have htakes : true = true → p.2.kind? ≠ some .finallyClause :=
    (h.takes (k := .program) hss p hp).2
  rw [Tree.isNode_eq, beq_iff_eq]
  exact htakes rfl

theorem Derives.countFinally_finallyHandler (h : Derives [.phrase .finallyHandler] cs parts rest) :
    countFinally parts ≤ 1 := by
  have h : Derives (if starts "finally" (viewOf cs) then [.node .part .finallyClause] else [])
      cs parts rest := derives_phrase h
  split at h
  · cases h with
    | node hkind hne hinside hrest =>
      cases hrest
      have hlead : countFinally (leadOf cs) = 0 := by
        refine List.countP_eq_zero.2 fun p hp => ?_
        cases cs with
        | nil => cases hp
        | cons c cs =>
          obtain ⟨t, -, rfl⟩ := List.mem_map.1 hp
          simp [Tree.isNode]
      rw [countFinally, List.countP_append]
      exact (Nat.add_le_add (Nat.le_of_eq hlead) List.countP_le_length)
  · cases h
    exact Nat.zero_le 1

theorem Derives.countFinally_handlers {resources : Bool}
    (h : Derives [.phrase (.handlers resources)] cs parts rest) : countFinally parts ≤ 1 := by
  have h : Derives (if starts "catch" (viewOf cs) then
      [.many .catchHandler, .phrase .finallyHandler]
    else if starts "finally" (viewOf cs) then [.phrase .finallyHandler]
    else if resources then [] else [.missing "catch"]) cs parts rest := derives_phrase h
  split_ifs at h
  · obtain ⟨ps, qs, mid, rfl, hps, hqs⟩ :=
      Derives.split (show Derives ([.many .catchHandler] ++ [.phrase .finallyHandler]) _ _ _ from h)
    rw [countFinally, List.countP_append]
    exact Nat.add_le_add (Nat.le_of_eq (hps.countFinally_eq_zero rfl))
      hqs.countFinally_finallyHandler
  · exact h.countFinally_finallyHandler
  · cases h
    exact Nat.zero_le 1
  · cases h

/-- A `try` has at most one `finally`. -/
theorem Derives.countFinally_try (h : Derives [.phrase (.inside .tryStatement)] cs parts rest) :
    countFinally parts ≤ 1 := by
  have h : Derives (if starts "(" (viewOf cs).tail then
      [.next, .group "(" .contents, .node .body .block, .phrase (.handlers true)]
    else [.next, .node .body .block, .phrase (.handlers false)]) cs parts rest := derives_phrase h
  have hall : ∃ resources ss, ss.all (Symbol.fits false true) = true ∧
      Derives (ss ++ [.phrase (.handlers resources)]) cs parts rest := by
    split at h
    · exact ⟨true, [.next, .group "(" .contents, .node .body .block], rfl, h⟩
    · exact ⟨false, [.next, .node .body .block], rfl, h⟩
  obtain ⟨resources, ss, hss, h⟩ := hall
  obtain ⟨ps, qs, mid, rfl, hps, hqs⟩ := h.split
  rw [countFinally, List.countP_append]
  exact Nat.add_le_add (Nat.le_of_eq (hps.countFinally_eq_zero hss)) hqs.countFinally_handlers

end Finally

end BranchExclusion.Java
