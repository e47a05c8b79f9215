import BranchExclusion.Proofs.Java.Headed

/-!
# Statements around blocks of a derived source

A statement that owns blocks shows its condition, or its header and what stands behind its body. These
are read with any blocks.

* `legibleCondition`: the condition of a conditional;
* `exists_compound`: the header of a loop and what stands behind its body;
* `exists_try`, `exists_clause`: the headers of a `try` and its handlers;
* `exists_labeled`: a label.
-/

namespace BranchExclusion.Java

open Layout (exprText)
open Text (slice)
open Phrase (statementKind? keywordStatement?)
open BranchExclusion.Java.Tree (trimmedSlice conditionText stripParentheses part? compoundKind?
  ownedRoles?)

variable {source : List Char} {cs mid rest : List Chunk} {ps qs front behind : Parts} {role : Role}
  {kind : NodeKind} {b : Tree} {place : Place} {e : Symbol} {x : Head} {hs : List Head}

/-! ### Loops -/

/-- Texts before a body and behind it that are read with any block as the body. -/
def FramesStatement (header trailer : List Char) : Prop :=
  ∃ hs ts, (words header = wordsIn hs ∧ Tidy header) ∧ (words trailer = wordsIn ts ∧ Tidy trailer) ∧
    ∀ ss, Statements ss → IsStatement (hs ++ blockShape ss :: ts)

/-- The body of the parts of a statement. -/
structure IsBodyOf (source : List Char) (parts : Parts) (b : Tree) : Prop where
  part : part? .body parts = some b
  only : ∀ p ∈ parts, p.1 = .body → p.2 = b
  stated : b.Stated source
  isComment : b.isComment = false

theorem IsBodyOf.stated_of_mem {parts : Parts} (h : IsBodyOf source parts b) {q : Role × Tree}
    (hq : q ∈ parts) (hrole : q.1 ∈ [Role.body]) : q.2.Stated source :=
  h.only q hq (List.mem_singleton.1 hrole) ▸ h.stated

theorem isBodyOf (hfront : ∀ p ∈ front, IsFront p) (hbehind : ∀ p ∈ behind, IsAside p)
    (hb : b.Stated source) (hcomment : b.isComment = false) :
    IsBodyOf source (front ++ (.body, b) :: behind) b := by
  have hother : ∀ p : Role × Tree, IsAside p → p.1 ≠ .body := by
    rintro p (hp | hp) <;> rw [hp] <;> decide
  refine ⟨part?_append (fun p hp => hother p (hfront p hp).1) b behind, fun p hp hrole => ?_, hb,
    hcomment⟩
  rcases List.mem_append.1 hp with hp | hp
  · exact absurd hrole (hother p (hfront p hp).1)
  · rcases List.mem_cons.1 hp with rfl | hp
    · rfl
    · exact absurd hrole (hother p (hbehind p hp))

theorem ownedRoles?_of_part? {parts : Parts} {extent : Extent} (hpart : part? .body parts = some b)
    (hkind : (compoundKind? kind).isSome ∨ kind = .tryStatement)
    (hdo : kind = .doStatement → (Tree.trailer source extent.stop b).isEmpty = false) :
    ownedRoles? source kind extent parts = some [.body] := by
  unfold ownedRoles?
  rw [hpart]
  cases kind <;> first
    | rfl
    | exact if_neg ((Bool.not_eq_true _).mpr (hdo rfl))
    | simp [compoundKind?] at hkind

/-- What stands behind the body of a `do`. -/
theorem DerivedFrom.exists_doCondition (h : DerivedFrom source [.phrase .doCondition] cs ps rest) :
    ∃ v s e used, tokensOf cs = used ++ tokensOf rest ∧ wordsOf used = wordsIn [.word v, s, .word e] ∧
      IsWord "while" v ∧ Parenthesized s ∧ IsWord ";" e := by
  have h : DerivedFrom source (if starts "while" (viewOf cs) then
      [.next, .node .condition .parentheses, .phrase .semicolon] else [.missing "while"]) cs ps rest :=
    h.phrase
  split at h
  · next hwhile =>
    obtain ⟨front, qs, mid, rfl, hfront, hqs⟩ :=
      @split source [.next, .node .condition .parentheses] [.phrase .semicolon] _ _ _ h
    obtain ⟨v, s, used, hused, hwords, hv, hs, hsight⟩ := hfront.exists_headed (.inr rfl)
    have hqs : DerivedFrom source (if starts ";" (viewOf mid) then [.next] else [.missing ";"]) mid qs
      rest := hqs.phrase
    split at hqs
    · next hsemicolon =>
      obtain ⟨e, used', hused', hwords', he, hsight'⟩ := hqs.exists_keyword
      rw [← hsight, List.cons_append, starts_sight] at hwhile
      rw [← hsight', starts_sight] at hsemicolon
      refine ⟨v, s, e, used ++ used', ?_, ?_, ⟨hwhile, hv⟩, hs, ⟨hsemicolon, he⟩⟩
      · rw [hused, hused', List.append_assoc]
      · rw [wordsOf_append, hwords, hwords']
        simp
    · cases hqs.derives
  · cases h.derives

section Compound

variable (htidy : Tidy source) (hview : viewOf cs = x :: hs) (hk : statementKind? x hs = some kind)
  (hw : (Tree.node kind (extentOf place ps) ps).WellFormed)
include htidy hw

/-- The texts around the body of a statement. -/
theorem words_around {es es' : List Symbol} {used used' : List Token} {b : Tree}
    (h : DerivedFrom source es (bareOf cs) front mid) (hfront : front ≠ []) {next : List Chunk}
    (hb : DerivedFrom source [e] mid (leadOf mid ++ [(role, b)]) next)
    (h' : DerivedFrom source es' next behind rest)
    (hps : ps = front ++ (leadOf mid ++ [(role, b)]) ++ behind)
    (hused : tokensOf (bareOf cs) = used ++ tokensOf mid)
    (hused' : tokensOf next = used' ++ tokensOf rest) :
    (words (trimmedSlice source (extentOf place ps).start b.extent.start).toList = wordsOf used ∧
        Tidy (trimmedSlice source (extentOf place ps).start b.extent.start).toList) ∧
      words (trimmedSlice source b.extent.stop (extentOf place ps).stop).toList = wordsOf used' ∧
        Tidy (trimmedSlice source b.extent.stop (extentOf place ps).stop).toList := by
  subst hps
  obtain ⟨hstart, -, hstop⟩ := hw.inOrder.bounds
    (List.mem_map_of_mem (f := Prod.snd) (a := (role, b)) (by simp [Tree.parts]))
  have hlo : (extentOf place (front ++ (leadOf mid ++ [(role, b)]) ++ behind)).start =
      (extentOf place front).start := by
    rw [List.append_assoc, extentOf_append_start hfront]
  constructor
  · rw [hlo]
    refine words_header htidy h hfront hb.derives hused ?_
    rw [← hlo]
    exact hstart
  · have hbody : DerivedFrom source (es ++ [e]) (bareOf cs) (front ++ leadOf mid ++ [(role, b)])
        next := by
      refine ⟨?_, h.paired, h.tokens⟩
      rw [List.append_assoc]
      exact h.derives.append hb.derives
    rw [← List.append_assoc front] at hstop ⊢
    exact words_trailer htidy hbody h'.derives hused' hstop

include hview hk

theorem exists_headed (hkind : kind ∈ [.whileStatement, .forStatement, .forEachStatement,
      .synchronizedStatement]) {body : Symbol} (he : IsParentheses e) (hbody : IsBody .body body)
    (hinside : DerivedFrom source [.next, e, body] (bareOf cs) ps rest) : ∃ b, IsBodyOf source ps b ∧
      ownedRoles? source kind (extentOf place ps) ps = some [.body] ∧
      FramesStatement (trimmedSlice source (extentOf place ps).start b.extent.start).toList
        (trimmedSlice source b.extent.stop (extentOf place ps).stop).toList := by
  obtain ⟨front, qs, mid, hps, hfront, hqs⟩ := @DerivedFrom.split source [.next, e] [body] _ _ _ hinside
  have hne := hfront.front_ne_nil
  obtain ⟨w, s, used, hused, hwords, hword, hs, hsight⟩ := hfront.exists_headed he
  obtain ⟨b, rfl, hb, hcomment⟩ := hqs.exists_body hbody (by decide)
  have hnil : DerivedFrom source [] rest [] rest := ⟨.nil, hqs.left.1, hqs.left.2⟩
  obtain ⟨hheader, htrailer⟩ := words_around htidy hw hfront hne hqs hnil (by rw [hps, List.append_nil])
    hused (List.nil_append _).symm
  have howner : kind.isOwner = true := by
    simp only [List.mem_cons, List.not_mem_nil, or_false] at hkind
    rcases hkind with rfl | rfl | rfl | rfl <;> rfl
  have hkeyword := keywordStatement?_eq hk howner
  rw [viewOf_bareOf, hview] at hsight
  obtain ⟨rfl, hbehind⟩ := of_sight_keyword hsight hkeyword
  rw [hwords] at hheader
  have hbodyOf : IsBodyOf source ps b := by
    rw [hps, ← List.append_assoc]
    exact isBodyOf (List.forall_mem_append.2 ⟨hfront.isFront he.plain, hqs.isLead.isFront⟩)
      (List.forall_mem_nil _) hb hcomment
  refine ⟨b, hbodyOf, ownedRoles?_of_part? hbodyOf.part (.inl ?_) ?_, [.word w, s], [], hheader,
    htrailer, fun ss hss => isStatement_headed hword hs hss hkind ?_⟩
  · simp only [List.mem_cons, List.not_mem_nil, or_false] at hkind
    rcases hkind with rfl | rfl | rfl | rfl <;> rfl
  · rintro rfl
    exact absurd hkind (by decide)
  · rw [← hkeyword]
    refine keywordStatement?_congr _ ?_
    rw [hbehind]
    exact (head?_sight s _).symm

theorem exists_do (hkind : kind = .doStatement)
    (hinside : DerivedFrom source [.next, .phrase (.branch .body), .phrase .doCondition] (bareOf cs) ps
      rest) :
    ∃ b, IsBodyOf source ps b ∧ ownedRoles? source kind (extentOf place ps) ps = some [.body] ∧
      FramesStatement (trimmedSlice source (extentOf place ps).start b.extent.start).toList
        (trimmedSlice source b.extent.stop (extentOf place ps).stop).toList := by
  subst hkind
  obtain ⟨front, qs, mid, hps, hfront, hqs⟩ := hinside.cons
  have hne := hfront.front_ne_nil
  obtain ⟨w, used, hused, hwords, hword, hsight⟩ := hfront.exists_keyword
  obtain ⟨bs, behind, next, rfl, hbs, hbehind⟩ := hqs.cons
  obtain ⟨b, rfl, hb, hcomment⟩ := hbs.exists_branch (by decide)
  obtain ⟨v, s, e, used', hused', hwords', hv, hs, he⟩ := hbehind.exists_doCondition
  rw [← List.append_assoc] at hps
  obtain ⟨hheader, htrailer⟩ := words_around htidy hw hfront hne hbs hbehind hps hused hused'
  have hkeyword := keywordStatement?_eq hk rfl
  rw [viewOf_bareOf, hview] at hsight
  obtain ⟨rfl, -⟩ := of_sight_keyword hsight hkeyword
  have hdo : w.is "do" = true := by
    rw [Word.is, beq_iff_eq]
    exact text_of_keyword hkeyword (by decide)
  rw [hwords] at hheader
  rw [hwords'] at htrailer
  have hbodyOf : IsBodyOf source ps b := by
    rw [hps, ← List.append_assoc, List.append_assoc]
    exact isBodyOf (List.forall_mem_append.2 ⟨hfront.isFront rfl, hbs.isLead.isFront⟩)
      (fun p hp => (hbehind.isFront rfl p hp).1) hb hcomment
  refine ⟨b, hbodyOf, ownedRoles?_of_part? hbodyOf.part (.inl rfl) fun _ => ?_, [.word w], _, hheader,
    htrailer, fun ss hss => isStatement_do ⟨hdo, hword⟩ hss hv hs he⟩
  rw [Bool.eq_false_iff, Ne, String.isEmpty_iff, Tree.trailer]
  intro hempty
  rw [hempty] at htrailer
  cases htrailer.1

/-- **A loop is read with any block as its body.** -/
theorem exists_compound (hkind : (compoundKind? kind).isSome)
    (hinside : DerivedFrom source [.phrase (.inside kind)] (bareOf cs) ps rest) : ∃ b,
      IsBodyOf source ps b ∧ ownedRoles? source kind (extentOf place ps) ps = some [.body] ∧
        FramesStatement (trimmedSlice source (extentOf place ps).start b.extent.start).toList
          (trimmedSlice source b.extent.stop (extentOf place ps).stop).toList := by
  have hbranch : IsBody .body (.phrase (.branch .body)) := .inl rfl
  cases kind
  case whileStatement =>
    exact exists_headed htidy hview hk hw (by decide) (.inr rfl) hbranch hinside.phrase
  case forStatement =>
    exact exists_headed htidy hview hk hw (by decide) (.inl rfl) hbranch hinside.phrase
  case forEachStatement =>
    exact exists_headed htidy hview hk hw (by decide) (.inl rfl) hbranch hinside.phrase
  case synchronizedStatement =>
    exact exists_headed htidy hview hk hw (by decide) (.inl rfl) (.inr rfl) hinside.phrase
  case doStatement => exact exists_do htidy hview hk hw rfl hinside.phrase
  all_goals cases hkind

end Compound

/-! ### Handlers -/

/-- The tree was read as a handler of a `try`. -/
inductive Tree.Handler (source : List Char) : Tree → Prop
  | node {kind : NodeKind} {place : Place} {cs rest : List Chunk} {ps : Parts} :
      Tree.isClause .tryStatement kind = true →
      (kind = .catchClause → starts "catch" (viewOf cs) = true) →
      DerivedFrom source [.phrase (.inside kind)] (bareOf cs) ps rest →
      Handler source (node kind (extentOf place ps) ps)

/-- The parts are handlers, and comments before them. -/
def AreHandlers (source : List Char) (ps : Parts) : Prop :=
  ∀ p ∈ ps, p.1 = .part ∧ (p.2.Handler source ∨ p.2.isComment = true)

theorem AreHandlers.isAside (h : AreHandlers source ps) : ∀ p ∈ ps, IsAside p :=
  fun p hp => .inl (h p hp).1

theorem IsLead.areHandlers {lead : Parts} (h : IsLead source lead) : AreHandlers source lead := by
  intro p hp
  obtain ⟨t, -, -, rfl⟩ := h p hp
  exact ⟨rfl, .inr rfl⟩

namespace DerivedFrom

theorem exists_handler (hkind : Tree.isClause .tryStatement kind = true)
    (hcatch : kind = .catchClause → starts "catch" (viewOf cs) = true)
    (h : DerivedFrom source [.node .part kind] cs ps rest) :
    AreHandlers source ps ∧ ∃ p ∈ ps, p.2.Handler source := by
  have hlead := h.isLead
  obtain ⟨place, qs, -, -, rfl, hinside⟩ := h.node
  have hhandler : Tree.Handler source (.node kind (extentOf place qs) qs) := .node hkind hcatch hinside
  exact ⟨List.forall_mem_append.2 ⟨hlead.areHandlers, List.forall_mem_singleton.2 ⟨rfl, .inl hhandler⟩⟩,
    _, List.mem_concat_self .., hhandler⟩

theorem areHandlers_catch (h : DerivedFrom source (Phrase.catchHandler.expand (viewOf cs)) cs ps rest) :
    AreHandlers source ps ∧ (starts "catch" (viewOf cs) = true → ∃ p ∈ ps, p.2.Handler source) := by
  have h : DerivedFrom source (if starts "catch" (viewOf cs) then [.node .part .catchClause] else [])
      cs ps rest := h
  split at h
  · next hcatch =>
    obtain ⟨hall, hsome⟩ := h.exists_handler (by decide) fun _ => hcatch
    exact ⟨hall, fun _ => hsome⟩
  · next hcatch =>
    rw [h.of_nil.1]
    exact ⟨List.forall_mem_nil _, fun hstarts => absurd hstarts hcatch⟩

theorem areHandlers_finally (h : DerivedFrom source [.phrase .finallyHandler] cs ps rest) :
    AreHandlers source ps ∧ (starts "finally" (viewOf cs) = true → ∃ p ∈ ps, p.2.Handler source) := by
  have h : DerivedFrom source
      (if starts "finally" (viewOf cs) then [.node .part .finallyClause] else []) cs ps rest := h.phrase
  split at h
  · obtain ⟨hall, hsome⟩ := h.exists_handler (by decide) fun hkind => by cases hkind
    exact ⟨hall, fun _ => hsome⟩
  · next hfinally =>
    rw [h.of_nil.1]
    exact ⟨List.forall_mem_nil _, fun hstarts => absurd hstarts hfinally⟩

/-- The first of the phrases that are read as often as they find something. -/
theorem exists_first {p : Phrase} (h : DerivedFrom source [.many p] cs ps rest)
    (hp : p.expand (viewOf cs) ≠ []) : ∃ first more mid, ps = first ++ more ∧
      DerivedFrom source (p.expand (viewOf cs)) cs first mid := by
  obtain ⟨hderives, hpaired, htokens⟩ := h
  cases hderives with
  | done hnil => exact absurd hnil hp
  | more _ _ hfirst _ => exact ⟨_, _, _, rfl, hfirst, hpaired, htokens⟩

/-- The handlers of a `try`. One without resources has some. -/
theorem areHandlers {resources : Bool}
    (h : DerivedFrom source [.phrase (.handlers resources)] cs ps rest) :
    AreHandlers source ps ∧ (resources = false → ∃ p ∈ ps, p.2.Handler source) := by
  have h : DerivedFrom source (if starts "catch" (viewOf cs) then
      [.many .catchHandler, .phrase .finallyHandler]
    else if starts "finally" (viewOf cs) then [.phrase .finallyHandler]
    else if resources then [] else [.missing "catch"]) cs ps rest := h.phrase
  split at h
  · next hcatch =>
    obtain ⟨catches, final, mid, rfl, hcatches, hfinal⟩ := h.cons
    refine ⟨List.forall_mem_append.2 ⟨hcatches.forall_many fun h => h.areHandlers_catch.1,
      hfinal.areHandlers_finally.1⟩, fun _ => ?_⟩
    have hne : Phrase.catchHandler.expand (viewOf cs) ≠ [] := by
      show (if starts "catch" (viewOf cs) then _ else _) ≠ []
      rw [if_pos hcatch]
      exact List.cons_ne_nil _ _
    obtain ⟨first, more, _, rfl, hfirst⟩ := hcatches.exists_first hne
    obtain ⟨p, hp, hhandler⟩ := hfirst.areHandlers_catch.2 hcatch
    exact ⟨p, by simp [hp], hhandler⟩
  · split at h
    · next hfinally => exact ⟨h.areHandlers_finally.1, fun _ => h.areHandlers_finally.2 hfinally⟩
    · split at h
      · next hresources =>
        rw [h.of_nil.1]
        exact ⟨List.forall_mem_nil _, fun hnone => by rw [hresources] at hnone; cases hnone⟩
      · cases h.derives

end DerivedFrom

/-- A header of a handler that is read with any block. -/
def FramesCatch (header : List Char) : Prop :=
  ∃ w s, (words header = wordsIn [.word w, s] ∧ Tidy header) ∧ IsWord "catch" w ∧ Parenthesized s

/-- **A handler has a block, and a `catch` a header before it.** -/
theorem Tree.Handler.exists_body (htidy : Tidy source) {t : Tree} (h : t.Handler source)
    (hw : t.WellFormed) : ∃ b, IsBodyOf source t.parts b ∧
      (t.isNode .catchClause = true →
        FramesCatch (trimmedSlice source t.extent.start b.extent.start).toList) := by
  cases h with
  | @node kind place cs rest ps hkind hcatch hinside =>
    cases kind
    case catchClause =>
      have hinside : DerivedFrom source [.next, .group "(" .contents, .node .body .block] (bareOf cs) ps
          rest := hinside.phrase
      obtain ⟨front, qs, mid, hps, hfront, hqs⟩ :=
        @DerivedFrom.split source [.next, .group "(" .contents] [.node .body .block] _ _ _ hinside
      have hne := hfront.front_ne_nil
      obtain ⟨w, s, used, hused, hwords, hword, hs, hsight⟩ := hfront.exists_headed (.inl rfl)
      obtain ⟨b, rfl, hb, hcomment⟩ := hqs.exists_block
      have hnil : DerivedFrom source [] rest [] rest := ⟨.nil, hqs.left.1, hqs.left.2⟩
      obtain ⟨hheader, -⟩ := words_around htidy hw hfront hne hqs hnil (by rw [hps, List.append_nil])
        hused (List.nil_append _).symm
      have hcatch := hcatch rfl
      rw [viewOf_bareOf] at hsight
      rw [← hsight, List.cons_append, starts_sight] at hcatch
      rw [hwords] at hheader
      refine ⟨b, ?_, fun _ => ⟨w, s, hheader, ⟨hcatch, hword⟩, hs⟩⟩
      show IsBodyOf source ps b
      rw [hps, ← List.append_assoc]
      exact isBodyOf (List.forall_mem_append.2 ⟨hfront.isFront rfl, hqs.isLead.isFront⟩)
        (List.forall_mem_nil _) hb hcomment
    case finallyClause =>
      have hinside : DerivedFrom source [.next, .node .body .block] (bareOf cs) ps rest :=
        hinside.phrase
      obtain ⟨front, qs, mid, hps, hfront, hqs⟩ := hinside.cons
      obtain ⟨b, rfl, hb, hcomment⟩ := hqs.exists_block
      refine ⟨b, ?_, fun h => nomatch h⟩
      show IsBodyOf source ps b
      rw [hps, ← List.append_assoc]
      exact isBodyOf (List.forall_mem_append.2 ⟨hfront.isFront rfl, hqs.isLead.isFront⟩)
        (List.forall_mem_nil _) hb hcomment
    all_goals cases hkind

/-- A text before the body of a `try` that is read with any block and any handlers. Without handlers it
is read only if there were none. -/
def FramesTry (source : List Char) (parts : Parts) (header : List Char) : Prop :=
  ∃ hs, (words header = wordsIn hs ∧ Tidy header) ∧ ∀ ss handlers, Statements ss → Handlers handlers →
    (handlers = [] → ∀ p ∈ parts, ¬ p.2.Handler source) → IsStatement (hs ++ blockShape ss :: handlers)

section Try

variable (htidy : Tidy source) (hw : (Tree.node .tryStatement (extentOf place ps) ps).WellFormed)
include htidy hw

/-- What stands behind the header of a `try`. -/
theorem exists_behind {resources : Bool} {es : List Symbol} {used : List Token} {ws : List Shape}
    (hfront : DerivedFrom source (.next :: es) (bareOf cs) front mid)
    (hplain : (.next :: es).all Symbol.plain = true)
    (hqs : DerivedFrom source [.node .body .block, .phrase (.handlers resources)] mid qs rest)
    (hps : ps = front ++ qs) (hused : tokensOf (bareOf cs) = used ++ tokensOf mid)
    (hwords : wordsOf used = wordsIn ws)
    (hread : ∀ ss handlers, Statements ss → Handlers handlers → (resources = false → handlers ≠ []) →
      IsStatement (ws ++ blockShape ss :: handlers)) : ∃ b, IsBodyOf source ps b ∧
      FramesTry source ps (trimmedSlice source (extentOf place ps).start b.extent.start).toList ∧
      ∀ p ∈ ps, p.2.isHandler = true → p.2.Handler source := by
  obtain ⟨bs, behind, next, rfl, hbs, hbehind⟩ := hqs.cons
  obtain ⟨b, rfl, hb, hcomment⟩ := hbs.exists_block
  obtain ⟨hhandlers, hsome⟩ := hbehind.areHandlers
  obtain ⟨used', hused', -⟩ := hbehind.derives.exists_leaves
  have hlead := List.forall_mem_append.2 ⟨hfront.isFront hplain, hbs.isLead.isFront⟩
  rw [← List.append_assoc] at hps
  obtain ⟨hheader, -⟩ := words_around htidy hw hfront hfront.front_ne_nil hbs hbehind hps hused hused'
  rw [← List.append_assoc, List.append_assoc] at hps
  refine ⟨b, ?_, ⟨ws, hwords ▸ hheader, fun ss handlers hss hs hne => hread ss handlers hss hs ?_⟩, ?_⟩
  · rw [hps]
    exact isBodyOf hlead hhandlers.isAside hb hcomment
  · rintro rfl rfl
    obtain ⟨p, hp, hhandler⟩ := hsome rfl
    exact hne rfl p (by simp [hps, hp]) hhandler
  · rw [hps]
    refine List.forall_mem_append.2 ⟨fun p hp hhandler => ?_, List.forall_mem_cons.2
      ⟨fun hhandler => ?_, fun p hp hhandler => ?_⟩⟩
    · rw [(hlead p hp).2] at hhandler
      cases hhandler
    · cases hw with
      | node _ _ htry _ =>
        rw [(htry rfl).body (.body, b) (by simp [hps]) rfl] at hhandler
        cases hhandler
    · refine (hhandlers p hp).2.resolve_right fun hcomment => ?_
      unfold Tree.isComment at hcomment
      split at hcomment
      · next heq =>
        rw [heq] at hhandler
        cases hhandler
      · cases hcomment

/-- **A `try` is read with any block as its body and with any handlers.** -/
theorem exists_try (hview : viewOf cs = x :: hs) (hk : statementKind? x hs = some .tryStatement)
    (hinside : DerivedFrom source [.phrase (.inside .tryStatement)] (bareOf cs) ps rest) : ∃ b,
      IsBodyOf source ps b ∧
        FramesTry source ps (trimmedSlice source (extentOf place ps).start b.extent.start).toList ∧
        ∀ p ∈ ps, p.2.isHandler = true → p.2.Handler source := by
  have hkeyword := keywordStatement?_eq hk rfl
  have htry : x.is "try" = true := by
    rw [Word.is, beq_iff_eq]
    exact text_of_keyword hkeyword (by decide)
  have hinside : DerivedFrom source (if starts "(" (viewOf (bareOf cs)).tail then
      [.next, .group "(" .contents, .node .body .block, .phrase (.handlers true)]
    else [.next, .node .body .block, .phrase (.handlers false)]) (bareOf cs) ps rest := hinside.phrase
  split at hinside
  · obtain ⟨front, qs, mid, hps, hfront, hqs⟩ := @DerivedFrom.split source [.next, .group "(" .contents]
      [.node .body .block, .phrase (.handlers true)] _ _ _ hinside
    obtain ⟨w, s, used, hused, hwords, hword, hs, hsight⟩ := hfront.exists_headed (.inl rfl)
    rw [viewOf_bareOf, hview] at hsight
    obtain ⟨rfl, -⟩ := of_sight_keyword hsight hkeyword
    exact exists_behind htidy hw hfront rfl hqs hps hused hwords fun ss handlers hss hhandlers _ =>
      isStatement_resources ⟨htry, hword⟩ hs hss hhandlers
  · obtain ⟨front, qs, mid, hps, hfront, hqs⟩ := hinside.cons
    obtain ⟨w, used, hused, hwords, hword, hsight⟩ := hfront.exists_keyword
    rw [viewOf_bareOf, hview] at hsight
    obtain ⟨rfl, -⟩ := of_sight_keyword hsight hkeyword
    exact exists_behind htidy hw hfront rfl hqs hps hused hwords fun ss handlers hss hhandlers hne =>
      isStatement_try ⟨htry, hword⟩ hss hhandlers (hne rfl)

end Try

end BranchExclusion.Java
