import BranchExclusion.Proofs.Java.Stated

/-!
# Headers of a derived source

What stands before the body of a statement, and behind it, has words that are read around any block.

* `words_header`, `words_trailer`: the words before a body and behind it;
* `exists_headed`: a keyword with parentheses behind it;
* `legibleCondition_of_derived`: the condition of a conditional.
-/

namespace BranchExclusion.Java

open Layout (exprText)
open Text (slice)
open Phrase (declaredKinds mem_of_declared? statementKind? statementKind?_cases keywordStatement?)
open BranchExclusion.Java.Tree (leavesOf trimmedSlice conditionText stripParentheses part?)

variable {source : List Char} {es es' : List Symbol} {cs mid rest : List Chunk}
  {ps front behind more : Parts} {role : Role} {kind : NodeKind} {b : Tree} {used : List Token}
  {place : Place} {e : Symbol}

/-! ### Texts before and behind a body -/

theorem extentOf_append_start (hfront : front ≠ []) (place : Place) (more : Parts) :
    (extentOf place (front ++ more)).start = (extentOf place front).start := by
  obtain ⟨p, front, rfl⟩ := List.exists_cons_of_ne_nil hfront
  rfl

/-- Parts that were derived start and end where their tokens do. -/
theorem Derives.parted {before after : List Token} (h : Derives es cs ps rest) (hps : ps ≠ [])
    (htokens : tokens source = before ++ tokensOf cs ++ after)
    (hused : tokensOf cs = used ++ tokensOf rest)
    (place : Place) : Parted source before (tokensOf cs ++ after) (extentOf place ps).start.offset ∧
      Parted source (before ++ used) (tokensOf rest ++ after) (extentOf place ps).stop.offset := by
  obtain ⟨used', hused', hleaves, htight⟩ := h.exists_leaves
  obtain rfl : used' = used := List.append_cancel_right (hused'.symm.trans hused)
  have hnode := Tree.tight_node .block place hps htight
  have hsplit : tokens source = before ++ used' ++ (tokensOf rest ++ after) := by
    rw [htokens, hused]
    simp
  have hparted := hnode.parted (by rw [Tree.leaves_node, hleaves]) hsplit
  rw [hused, List.append_assoc]
  exact hparted

/-- **The words before a body.** -/
theorem words_header (hs : Tidy source) (h : DerivedFrom source es cs front mid) (hfront : front ≠ [])
    (h' : Derives es' mid (leadOf mid ++ (role, b) :: more) rest)
    (hused : tokensOf cs = used ++ tokensOf mid)
    (hle : (extentOf place front).start.offset ≤ b.start) :
    words (trimmedSlice source (extentOf place front).start b.extent.start).toList = wordsOf used ∧
      Tidy (trimmedSlice source (extentOf place front).start b.extent.start).toList := by
  obtain ⟨before, after, htokens⟩ := h.tokens
  have htokens := htokens.symm
  obtain ⟨hstart, -⟩ := h.derives.parted hfront htokens hused place
  obtain ⟨used', hused', hleaves, htight⟩ := h'.exists_leaves
  obtain ⟨comments, htokens', hlead, -, hcomments⟩ := leavesOf_leadOf mid
  -- the tokens of the body stand behind the comments before it
  rw [Tree.leavesOf_append, hlead, Tree.leavesOf_cons] at hleaves
  obtain ⟨first, held, rfl, hfirst, hheld⟩ := List.map_eq_append_iff.1 hleaves.symm
  obtain ⟨held, others, rfl, hheld, -⟩ := List.map_eq_append_iff.1 hheld
  have hlength : first.length = comments.length := by simpa using congrArg List.length hfirst
  obtain ⟨rfl, hbare⟩ : first = comments ∧ held ++ others ++ tokensOf rest = tokensOf (bareOf mid) := by
    rw [hused', List.append_assoc] at htokens'
    exact List.append_inj htokens' hlength
  have hb : b.Tight := htight (role, b) (by simp)
  have hsplit : tokens source =
      before ++ (used ++ first) ++ held ++ (others ++ tokensOf rest ++ after) := by
    rw [htokens, hused, hused']
    simp
  obtain ⟨hstop, -⟩ := hb.parted hheld.symm hsplit
  have hbehind : tokensOf cs ++ after =
      used ++ first ++ (held ++ (others ++ tokensOf rest ++ after)) := by
    rw [hused, hused']
    simp
  rw [hbehind] at hstart
  obtain ⟨hwords, htidy⟩ := hstart.words_trimmedSlice hs hstop hle
  refine ⟨hwords.trans ?_, htidy⟩
  rw [wordsOf_append, wordsOf_comments (hcomments h.left.1), List.append_nil]

/-- **The words behind a body.** -/
theorem words_trailer (hs : Tidy source) (h : DerivedFrom source es cs (front ++ [(role, b)]) mid)
    (h' : Derives es' mid behind rest) (hused : tokensOf mid = used ++ tokensOf rest)
    (hle : b.stop ≤ (extentOf place (front ++ [(role, b)] ++ behind)).stop.offset) :
    words (trimmedSlice source b.extent.stop
        (extentOf place (front ++ [(role, b)] ++ behind)).stop).toList = wordsOf used ∧
      Tidy (trimmedSlice source b.extent.stop
        (extentOf place (front ++ [(role, b)] ++ behind)).stop).toList := by
  obtain ⟨before, after, htokens⟩ := h.tokens
  have htokens := htokens.symm
  obtain ⟨used₁, hused₁, -⟩ := h.derives.exists_leaves
  obtain ⟨-, hstart⟩ := h.derives.parted (by simp) htokens hused₁ place
  have hall : tokensOf cs = used₁ ++ used ++ tokensOf rest := by rw [hused₁, hused, List.append_assoc]
  obtain ⟨-, hstop⟩ := (h.derives.append h').parted (by simp) htokens hall place
  have hb : (extentOf place (front ++ [(role, b)])).stop = b.extent.stop := by simp [extentOf]
  rw [hb, hused, List.append_assoc] at hstart
  rw [← List.append_assoc] at hstop
  exact hstart.words_trimmedSlice hs hstop hle

/-! ### Keywords and parentheses -/

/-- Parentheses, by themselves or as the condition of a statement. -/
def IsParentheses (e : Symbol) : Prop :=
  e = .group "(" .contents ∨ e = .node .condition .parentheses

theorem Reads.exists_parenthesized {ss rest : List Shape} (he : IsParentheses e) (hs : Sound ss)
    (h : Reads [e] (ss ++ rest) rest) : ∃ s, ss = [s] ∧ Parenthesized s := by
  have h : Reads [.group "(" .contents] (ss ++ rest) rest := by
    rcases he with rfl | rfl
    · exact h
    · cases h with
      | node _ _ hinside hnil =>
        cases hnil
        exact hinside.of_phrase
  generalize htotal : ss ++ rest = total at h
  cases h with
  | group hopening hinner hnil =>
    cases hnil
    obtain rfl : ss = [_] := List.append_cancel_right htotal
    exact ⟨_, rfl, _, _, _, rfl, hopening, hs, hinner⟩

theorem sound_singleton {s : Shape} {ss : List Shape} (h : Sound (s :: ss)) : Sound [s] ∧ Sound ss := by
  cases h with
  | word hopens hcloses hstray hrest => exact ⟨.word hopens hcloses hstray .nil, hrest⟩
  | group hopens hcloses ho hc hinner hrest => exact ⟨.group hopens hcloses ho hc hinner .nil, hrest⟩

theorem Reads.exists_word {ss rest : List Shape} (h : Reads (.token role :: es) (ss ++ rest) rest) :
    ss = [] ∨ ∃ w ss', ss = .word w :: ss' ∧ Reads es (ss' ++ rest) rest := by
  cases ss with
  | nil => exact .inl rfl
  | cons s ss =>
    cases h with
    | token h => exact .inr ⟨_, ss, rfl, h⟩

/-- A first word, and what is read behind it. -/
theorem DerivedFrom.exists_word (h : DerivedFrom source (.token role :: es) cs front mid) :
    ∃ w ss used, tokensOf cs = used ++ tokensOf mid ∧ wordsOf used = wordsIn (.word w :: ss) ∧
      Sound [.word w] ∧ Sound ss ∧ sight (.word w :: ss ++ shapesOf mid) = viewOf cs ∧
        Reads es (ss ++ shapesOf mid) (shapesOf mid) := by
  obtain ⟨ss, used, hss, hwords⟩ := h.exists_plain
  have hmore : sight (shapesOf mid) = viewOf mid := sight_shapesOf mid
  have hlength := hss.length_eq
  obtain ⟨ps, qs, next, rfl, hps, hqs⟩ := h.cons
  obtain ⟨w, rfl, rfl, -⟩ := hps.token
  have hle := hqs.derives.length.1
  rcases (hss.reads _ hmore).exists_word with rfl | ⟨v, ss, rfl, hreads⟩
  · simp at hlength
    omega
  · obtain ⟨hv, hsound⟩ := sound_singleton hss.sound
    refine ⟨v, ss, used, hss.tokens, hwords.symm, hv, hsound, Rereads.sight_eq hss.signs hmore, hreads⟩

theorem Reads.of_nil {ss rest : List Shape} (h : Reads [] (ss ++ rest) rest) : ss = [] := by
  generalize htotal : ss ++ rest = total at h
  cases h
  exact List.append_left_eq_self.1 htotal

/-- A keyword. -/
theorem DerivedFrom.exists_keyword (h : DerivedFrom source [.next] cs front mid) : ∃ w used,
    tokensOf cs = used ++ tokensOf mid ∧ wordsOf used = wordsIn [.word w] ∧ Sound [.word w] ∧
      sight (.word w :: shapesOf mid) = viewOf cs := by
  obtain ⟨w, ss, used, hused, hwords, hw, -, hsight, hreads⟩ := h.exists_word
  obtain rfl := hreads.of_nil
  exact ⟨w, used, hused, hwords, hw, hsight⟩

/-- **A keyword with parentheses behind it.** -/
theorem DerivedFrom.exists_headed (he : IsParentheses e)
    (h : DerivedFrom source [.next, e] cs front mid) : ∃ w s used, tokensOf cs = used ++ tokensOf mid ∧
      wordsOf used = wordsIn [.word w, s] ∧ Sound [.word w] ∧ Parenthesized s ∧
        sight ([.word w, s] ++ shapesOf mid) = viewOf cs := by
  obtain ⟨w, ss, used, hused, hwords, hw, hsound, hsight, hreads⟩ := h.exists_word
  obtain ⟨s, rfl, hs⟩ := hreads.exists_parenthesized he hsound
  exact ⟨w, s, used, hused, hwords, hw, hs, hsight⟩

/-- The part has no special role, or it is a condition. -/
def IsAside (p : Role × Tree) : Prop := p.1 = .part ∨ p.1 = .condition

/-- The part stands before a body: it has no special role, or it is a condition, and it is no
handler. -/
def IsFront (p : Role × Tree) : Prop := IsAside p ∧ p.2.isHandler = false

/-- The symbol stands in a header. -/
def Symbol.plain : Symbol → Bool
  | .token role => role = .part
  | .node role kind =>
    (role = .part || role = .condition) && !(kind = .catchClause || kind = .finallyClause)
  | .raw _ | .missing _ | .unfit _ => true
  | .phrase p | .many p | .group _ p =>
    [.contents, .piece, .elements, .element, .doCondition, .semicolon].contains p

theorem plain_expandUnit (hs : List Head) : (Phrase.expandUnit hs).all Symbol.plain = true := by
  cases hs with
  | nil => rfl
  | cons x hs =>
    rw [Phrase.expandUnit]
    repeat' first | rfl | apply Phrase.all_ite

theorem plain_expand {p : Phrase} (hp : (Symbol.phrase p).plain = true) (hs : List Head) :
    (p.expand hs).all Symbol.plain = true := by
  have hp := List.contains_iff_mem.1 hp
  simp only [List.mem_cons, List.not_mem_nil, or_false] at hp
  rcases hp with rfl | rfl | rfl | rfl | rfl | rfl
  · exact Phrase.all_ite rfl rfl
  · exact Phrase.all_ite rfl (Phrase.all_ite (Phrase.all_ite rfl rfl) (plain_expandUnit hs))
  · rfl
  · exact Phrase.all_ite rfl (plain_expandUnit hs)
  · exact Phrase.all_ite rfl rfl
  · exact Phrase.all_ite rfl rfl

/-- What stands in a header stands before a body. -/
theorem DerivedFrom.isFront (h : DerivedFrom source es cs ps rest) (hes : es.all Symbol.plain = true) :
    ∀ p ∈ ps, IsFront p := by
  have hgives : ∀ {s : Symbol}, s.plain = true → s.Gives
      (fun role kind => (role = .part ∨ role = .condition) ∧
        kind ≠ some .catchClause ∧ kind ≠ some .finallyClause)
      (fun p => (Symbol.phrase p).plain = true) := by
    intro s hs
    cases s with
    | raw | missing | unfit => trivial
    | token role => exact ⟨.inl (of_decide_eq_true hs), nofun, nofun⟩
    | node role kind => simpa [Symbol.plain, Symbol.Gives] using hs
    | group | phrase | many => exact hs
  have hall := h.derives.forall_parts (Q := fun role kind => (role = .part ∨ role = .condition) ∧
      kind ≠ some .catchClause ∧ kind ≠ some .finallyClause) ⟨.inl rfl, nofun, nofun⟩
    (fun p hp hs s hmem => hgives (List.all_eq_true.1 (plain_expand hp hs) s hmem))
    (fun s hmem => hgives (List.all_eq_true.1 hes s hmem))
  rintro ⟨role, t⟩ hp
  obtain ⟨hrole, hcatch, hfinally⟩ := hall _ hp
  refine ⟨hrole, ?_⟩
  cases t with
  | leaf => rfl
  | node kind e qs =>
    have hne : kind ≠ .catchClause ∧ kind ≠ .finallyClause :=
      ⟨fun h => hcatch (congrArg some h), fun h => hfinally (congrArg some h)⟩
    simpa [Tree.isHandler, Tree.isNode] using hne

theorem IsLead.isFront {lead : Parts} (h : IsLead source lead) : ∀ p ∈ lead, IsFront p := by
  intro p hp
  obtain ⟨t, -, -, rfl⟩ := h p hp
  exact ⟨.inl rfl, rfl⟩

theorem IsParentheses.plain (he : IsParentheses e) : List.all [.next, e] Symbol.plain = true := by
  rcases he with rfl | rfl <;> rfl

/-- A header starts with a token. -/
theorem DerivedFrom.front_ne_nil (h : DerivedFrom source (.next :: es) cs front mid) : front ≠ [] := by
  obtain ⟨ps, qs, next, rfl, hps, -⟩ := h.cons
  obtain ⟨w, rfl, rfl, -⟩ := hps.token
  simp [Lexeme.parts]

/-! ### Bodies -/

/-- A statement as the body of another one, or a block. -/
def IsBody (role : Role) (e : Symbol) : Prop := e = .phrase (.branch role) ∨ e = .node role .block

theorem DerivedFrom.exists_branch (h : DerivedFrom source [.phrase (.branch role)] cs ps rest)
    (hrole : role ≠ .name) :
    ∃ b, ps = leadOf cs ++ [(role, b)] ∧ b.Stated source ∧ b.isComment = false := by
  have h : DerivedFrom source (if (viewOf cs).isEmpty then [.missing "statement"]
    else [.phrase (.statement role)]) cs ps rest := h.phrase
  split at h
  · cases h.derives
  · next hview => exact h.exists_statement (by simpa using hview) hrole

/-- A block is a statement. -/
theorem DerivedFrom.exists_block (h : DerivedFrom source [.node role .block] cs ps rest) :
    ∃ b, ps = leadOf cs ++ [(role, b)] ∧ b.Stated source ∧ b.isComment = false := by
  obtain ⟨place, qs, -, hqs, rfl, hinside⟩ := h.node
  have hgroup : DerivedFrom source [.group leftBrace .statements] (bareOf cs) qs rest := hinside.phrase
  obtain ⟨o, inner, c, _, hcs, hopening, hbrackets, -, -⟩ := hgroup.group
  obtain ⟨comments, t, rfl, rfl⟩ := exists_of_bareOf hcs
  have hword : t.word = symbolWord '{' := eq_symbolWord hbrackets.opening hbrackets.opens hopening
  have hview : viewOf (.group ⟨comments, t⟩ inner (some c) :: rest) = [⟨symbolWord '{', false⟩] := by
    unfold viewOf
    rw [List.map_cons, Chunk.head, hword]
    rfl
  exact ⟨_, rfl, .node hview rfl (by decide) hqs hinside, rfl⟩

theorem DerivedFrom.exists_body (he : IsBody role e) (h : DerivedFrom source [e] cs ps rest)
    (hrole : role ≠ .name) :
    ∃ b, ps = leadOf cs ++ [(role, b)] ∧ b.Stated source ∧ b.isComment = false := by
  rcases he with rfl | rfl
  · exact h.exists_branch hrole
  · exact h.exists_block

/-- The first part with a role. -/
theorem part?_append (h : ∀ p ∈ front, p.1 ≠ role) (b : Tree) (more : Parts) :
    part? role (front ++ (role, b) :: more) = some b := by
  induction front with
  | nil => rw [List.nil_append, Tree.part?_cons, if_pos rfl]
  | cons p front ih =>
    obtain ⟨hp, h⟩ := List.forall_mem_cons.1 h
    rw [List.cons_append, Tree.part?_cons, if_neg hp, ih h]

/-! ### Keywords -/

/-- The statement owns blocks. -/
def NodeKind.isOwner : NodeKind → Bool
  | .ifStatement | .whileStatement | .doStatement | .forStatement | .forEachStatement
  | .synchronizedStatement | .tryStatement => true
  | _ => false

/-- A statement that owns blocks starts with a keyword. -/
theorem keywordStatement?_eq {x : Head} {hs : List Head} (h : statementKind? x hs = some kind)
    (hkind : kind.isOwner = true) : keywordStatement? x hs = some kind := by
  rcases statementKind?_cases h with ⟨rfl, -⟩ | rfl | hkeyword | ⟨lead, hdeclared⟩ | rfl
  · cases hkind
  · cases hkind
  · exact hkeyword
  · have hall : ∀ k ∈ declaredKinds, k.isOwner = false := by decide
    rw [hall kind (mem_of_declared? hdeclared)] at hkind
    cases hkind
  · cases hkind

/-- The keyword of a statement, apart from those that two kinds of statements share. -/
theorem text_of_keyword {text : String} {x : Head} {hs : List Head}
    (h : keywordStatement? x hs = some kind)
    (htext : kind ≠ .forStatement ∧ kind ≠ .forEachStatement ∧ kind ≠ .synchronizedStatement ∧
      ∀ p ∈ Phrase.keywordStatements, p.2 = kind → p.1 = text) : x.text = text := by
  obtain ⟨hfor, heach, hsync, htext⟩ := htext
  unfold keywordStatement? at h
  split_ifs at h
  · exact absurd (Option.some.inj h).symm hfor
  · exact absurd (Option.some.inj h).symm heach
  · exact absurd (Option.some.inj h).symm hsync
  · obtain ⟨before, after, hsplit, -⟩ := List.lookup_eq_some_iff.1 h
    exact htext (x.text, kind) (by simp [hsplit]) rfl

/-- Only the chunk behind the keyword makes a difference. -/
theorem keywordStatement?_congr (x : Head) {hs hs' : List Head} (h : hs.head? = hs'.head?) :
    keywordStatement? x hs = keywordStatement? x hs' := by
  unfold keywordStatement? starts
  rw [h]

/-- What is seen of a keyword and of what follows it. -/
theorem of_sight_keyword {x : Head} {hs : List Head} {w : Word} {more : List Shape}
    (hsight : sight (.word w :: more) = x :: hs) (hk : keywordStatement? x hs = some kind) :
    x = ⟨w, false⟩ ∧ hs = sight more := by
  rw [sight_cons] at hsight
  obtain ⟨hx, hhs⟩ := List.cons.inj hsight
  have hall : ∀ text ∈ "for" :: "synchronized" :: Phrase.keywordStatements.map Prod.fst,
      ((text == ";") || (text == leftBrace)) = false := by decide
  have hstops : (Shape.word w).head.stops = false := by
    rw [hx]
    exact hall _ (text_of_keywordStatement? hk)
  rw [hstops, if_neg Bool.false_ne_true] at hhs
  exact ⟨hx.symm, hhs.symm⟩

theorem head?_sight (s : Shape) (more : List Shape) : (sight (s :: more)).head? = some s.head := by
  rw [sight_cons]
  rfl

end BranchExclusion.Java
