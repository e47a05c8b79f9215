import BranchExclusion.Proofs.Java.Framed
import BranchExclusion.Proofs.Java.Stretches

/-!
# Conditions and labels of a derived source

* `exists_condition`: the condition of a conditional, without its parentheses;
* `exists_labeled`: the label of a statement and what stands behind it;
* `Renewal.isStatementText_empty`: a label before a semicolon is kept.
-/

namespace BranchExclusion.Java

open Layout (Printer exprText)
open Text (slice)
open Phrase (statementKind?)
open BranchExclusion.Java.Tree (conditionText stripParentheses part?)

variable {source : List Char} {cs mid rest : List Chunk} {ps : Parts} {role : Role} {place : Place}
  {x : Head} {hs : List Head}

/-! ### Conditions -/

/-- The text from one parenthesis to the other. -/
theorem slice_parentheses {before ts after : List Token} {t c : Token}
    (htokens : tokens source = before ++ [t] ++ ts ++ c :: after) (hopening : t.word.is "(" = true)
    (hclosing : c.word.is ")" = true) : slice source t.extent.start.offset c.extent.stop.offset =
      '(' :: (slice source t.extent.stop.offset c.extent.start.offset ++ [')']) := by
  have hle : t.extent.stop.offset ≤ c.extent.start.offset :=
    (parted_stop (htokens.trans (List.append_assoc ..))).behind c (by simp)
  have ht : t ∈ tokens source := by simp [htokens]
  have hc : c ∈ tokens source := by simp [htokens]
  obtain ⟨hopened, hfits⟩ := text_of_mem_tokens ht
  obtain ⟨hclosed, hfits'⟩ := text_of_mem_tokens hc
  rw [text_eq_of_is (by decide) hopening] at hopened
  rw [text_eq_of_is (by decide) hclosing] at hclosed
  have hlt : t.extent.start.offset < t.extent.stop.offset := hfits.nonempty
  have hlt' : c.extent.start.offset < c.extent.stop.offset := hfits'.nonempty
  rw [Text.slice_append (b := t.extent.stop.offset) hlt.le (by omega) hfits.start hfits.stop,
    Text.slice_append (b := c.extent.start.offset) hle hlt'.le hfits.stop hfits'.start, ← hopened,
    ← hclosed]
  rfl

/-- **What stands in parentheses** has words that are read. -/
theorem DerivedFrom.exists_contents (htidy : Tidy source) (place : Place)
    (h : DerivedFrom source [.phrase (.inside .parentheses)] (bareOf cs) ps rest) : ∃ ss, Sound ss ∧
      Reads [.phrase .contents] ss [] ∧
        words (stripParentheses (slice source (extentOf place ps).start.offset
          (extentOf place ps).stop.offset)) = wordsIn ss ∧
        Tidy (stripParentheses (slice source (extentOf place ps).start.offset
          (extentOf place ps).stop.offset)) := by
  have h : DerivedFrom source [.group "(" .contents] (bareOf cs) ps rest := h.phrase
  obtain ⟨o, inner, c, qs, hcs, hopening, hbrackets, rfl, hinner⟩ := h.group
  obtain ⟨comments, t, rfl, -⟩ := exists_of_bareOf hcs
  obtain ⟨before, after, htokens⟩ := h.tokens
  have htokens : Java.tokens source = before ++ [t] ++ (tokensOf inner ++ c.comments) ++
      c.token :: (tokensOf rest ++ after) := by
    rw [← htokens, hcs, tokensOf_cons, Chunk.tokens_group]
    simp [Lexeme.tokens]
  have hlo := parted_stop (htokens.trans (List.append_assoc ..))
  have hhi := parted_start htokens
  have hle : t.extent.stop.offset ≤ c.token.extent.start.offset := hlo.behind c.token (by simp)
  have hcloser : closerOf t.word = ")" := by rw [closerOf, if_pos hopening]
  obtain ⟨hstart, hstop⟩ := ByteRange.mk.inj (@range_extentOf place t qs c)
  rw [hstart, hstop, slice_parentheses htokens hopening (hcloser ▸ hbrackets.closes),
    Tree.stripParentheses_eq]
  -- between the parentheses stand what they hold and the comments behind it
  obtain ⟨ss, used, hss, hwords⟩ := hinner.exists_plain
  have hused := hss.tokens
  rw [tokensOf_nil, List.append_nil] at hused
  have hreads := hss.reads [] rfl
  rw [List.append_nil] at hreads
  have htrimmed : (Tree.trimmedSlice source t.extent.stop c.token.extent.start).toList =
      Text.trim (slice source t.extent.stop.offset c.token.extent.start.offset) := String.toList_ofList
  have hends := hlo.words_trimmedSlice htidy hhi hle
  rw [wordsOf_append, wordsOf_comments hbrackets.closing.comments, List.append_nil, hused, ← hwords,
    htrimmed] at hends
  exact ⟨ss, hss.sound, hreads, hends⟩

theorem DerivedFrom.role_next (h : DerivedFrom source [.next] cs ps rest) : ∀ p ∈ ps, p.1 = .part := by
  obtain ⟨w, -, rfl, hstray, -⟩ := h.token
  exact forall_mem_parts (Q := fun p => p.1 = .part) (fun _ => rfl) hstray fun _ _ => rfl

/-- The `else` of a conditional. -/
theorem DerivedFrom.forall_alternative (h : DerivedFrom source [.phrase .alternative] cs ps rest) :
    ∀ p ∈ ps, IsAside p ∨ p.2.Stated source := by
  have h : DerivedFrom source (if starts "else" (viewOf cs) then [.next, .phrase (.branch .alternative)]
    else []) cs ps rest := h.phrase
  split at h
  · obtain ⟨front, qs, mid, rfl, hfront, hqs⟩ := h.cons
    obtain ⟨b, rfl, hb, -⟩ := hqs.exists_branch (by decide)
    exact List.forall_mem_append.2 ⟨fun p hp => .inl (hfront.isFront rfl p hp).1,
      List.forall_mem_append.2 ⟨fun p hp => .inr (hqs.isLead.stated p hp),
        List.forall_mem_singleton.2 (.inr hb)⟩⟩
  · rw [h.of_nil.1]
    exact List.forall_mem_nil _

/-- **The condition of a conditional** is read, unless a line comment runs to its end. What it owns are
statements. -/
theorem exists_condition (htidy : Tidy source)
    (h : DerivedFrom source [.phrase (.inside .ifStatement)] (bareOf cs) ps rest) :
    (runsOn (exprText (conditionText source ps)) = false → LegibleCondition (conditionText source ps)) ∧
      ∀ p ∈ ps, p.1 = .consequence ∨ p.1 = .alternative → p.2.Stated source := by
  have h : DerivedFrom source ([.next] ++ ([.node .condition .parentheses] ++
    ([.phrase (.branch .consequence)] ++ [.phrase .alternative]))) (bareOf cs) ps rest := h.phrase
  obtain ⟨front, _, mid₁, rfl, hfront, h⟩ := h.split
  obtain ⟨conditions, _, mid₂, rfl, hcondition, h⟩ := h.split
  obtain ⟨branches, alternatives, mid₃, rfl, hbranch, halternative⟩ := h.split
  obtain ⟨b, rfl, hb, -⟩ := hbranch.exists_branch (by decide)
  have hroles := hcondition.isFront rfl
  obtain ⟨place, qs, -, -, rfl, hinside⟩ := hcondition.node
  constructor
  · intro hclosed
    have hpart : part? .condition (front ++ ((leadOf mid₁ ++
        [(.condition, .node .parentheses (extentOf place qs) qs)]) ++
          ((leadOf mid₂ ++ [(.consequence, b)]) ++ alternatives))) =
            some (.node .parentheses (extentOf place qs) qs) := by
      rw [List.append_assoc, ← List.append_assoc front]
      refine part?_append (List.forall_mem_append.2 ⟨fun p hp => ?_, fun p hp => ?_⟩) _ _
      · rw [hfront.role_next p hp]
        decide
      · obtain ⟨t, -, -, rfl⟩ := hcondition.isLead p hp
        exact nofun
    have htext : exprText (conditionText source (front ++ ((leadOf mid₁ ++
        [(.condition, .node .parentheses (extentOf place qs) qs)]) ++
          ((leadOf mid₂ ++ [(.consequence, b)]) ++ alternatives)))) =
        stripParentheses
          (slice source (extentOf place qs).start.offset (extentOf place qs).stop.offset) := by
      rw [conditionText, Tree.partText, hpart]
      simp [exprText, Tree.textIn, Tree.extent]
    obtain ⟨ss, hsound, hreads, hwords, htidy'⟩ := hinside.exists_contents htidy place
    rw [htext] at hclosed
    exact ⟨ss, htext ▸ ⟨hwords, htidy', hclosed⟩, hsound, hreads⟩
  · have hall : ∀ p ∈ front ++ ((leadOf mid₁ ++
        [(.condition, .node .parentheses (extentOf place qs) qs)]) ++
          ((leadOf mid₂ ++ [(.consequence, b)]) ++ alternatives)), IsAside p ∨ p.2.Stated source :=
      List.forall_mem_append.2 ⟨fun p hp => .inl (hfront.isFront rfl p hp).1,
        List.forall_mem_append.2 ⟨fun p hp => .inl (hroles p hp).1,
          List.forall_mem_append.2 ⟨List.forall_mem_append.2
            ⟨fun p hp => .inr (hbranch.isLead.stated p hp), List.forall_mem_singleton.2 (.inr hb)⟩,
              halternative.forall_alternative⟩⟩⟩
    intro p hp hrole
    refine (hall p hp).resolve_left ?_
    rintro (haside | haside) <;> rw [haside] at hrole <;> exact absurd hrole (by decide)

/-! ### Labels -/

/-- A token that is a word has a text that is a word by itself. -/
theorem named_of_mem_tokens {t : Token} (ht : t ∈ tokens source) (hkind : t.kind = .word) :
    Named t.text.toList := by
  obtain ⟨-, c, rest, -, -, htext, -⟩ := exists_split_of_mem_tokensAt ht
  rw [hkind] at htext
  have hplain : ∀ {c more}, plainText c more = (.word, t.text.toList) → Named t.text.toList := by
    intro c more h
    unfold plainText at h
    split at h
    · next hc =>
      exact ⟨c, _, (congrArg Prod.snd h).symm, hc, fun d hd => List.mem_takeWhile_imp hd⟩
    · split at h
      · cases h
      · split at h <;> cases h
  unfold tokenText closedText at htext
  split at htext
  · cases htext
  · split at htext <;> cases htext
  · split at htext <;> cases htext
  · split at htext <;> cases htext
  · split at htext <;> cases htext
  · exact hplain htext

theorem isLabel_of_named {w : Word} (h : Named w.text.toList) (hname : w.isName = true) :
    IsLabel w := by
  have hne : ∀ symbol : String, (symbol.toList.head?.all fun c => !startsWord c) = true →
      w.is symbol = false := fun symbol hsymbol => by
    have := h.ne_symbol hsymbol
    rwa [String.ofList_toList] at this
  have hkind : w.kind = .word := by
    unfold Word.isName at hname
    rw [Bool.and_eq_true, beq_iff_eq] at hname
    exact hname.1
  refine ⟨hname, .word ?_ ?_ ?_ .nil, ?_⟩
  · simp [Word.opens, hne "(" rfl, hne "[" rfl, hne leftBrace rfl]
  · simp [Word.closes, hne ")" rfl, hne "]" rfl, hne rightBrace rfl]
  · simp [Word.isStray, hkind]
  · simp only [List.forall_mem_cons]
    exact ⟨hne _ rfl, hne _ rfl, hne _ rfl, List.forall_mem_nil _⟩

/-- A labeled statement starts with a name and a colon. -/
theorem label_of_statementKind? (h : statementKind? x hs = some .labeledStatement) :
    x.isName = true ∧ starts ":" hs = true := by
  rcases Phrase.statementKind?_cases h with
    ⟨-, hlabel⟩ | hblock | hkeyword | ⟨lead, hdeclared⟩ | hsimple
  · exact hlabel
  · cases hblock
  · exact absurd (Phrase.mem_of_keywordStatement? hkeyword) (by decide)
  · exact absurd (Phrase.mem_of_declared? hdeclared) (by decide)
  · cases hsimple

/-- A label with what stands behind it. -/
structure IsLabeled (source : List Char) (w : Word) (ps : Parts) (t : Token) (middle : Parts)
    (b : Tree) : Prop where
  word : w = keyword t.text
  parts : ps = (.name, .leaf .name t.extent) :: middle ++ [(.body, b)]
  token : t ∈ tokens source
  label : IsLabel (keyword t.text)
  named : Named t.text.toList
  middle : ∀ p ∈ middle, p.2.isNamed = true → p.2.Stated source
  stated : b.Stated source
  isComment : b.isComment = false

theorem exists_of_bareOf_word {w : Lexeme} (h : bareOf cs = .word w :: mid) : w = ⟨[], w.token⟩ := by
  cases cs with
  | nil => cases h
  | cons c cs =>
    cases c with
    | word v =>
      cases h
      rfl
    | group => cases h

/-- Before a symbol stand comments. -/
theorem DerivedFrom.stated_next (h : DerivedFrom source [.next] cs ps rest) :
    ∀ p ∈ ps, p.2.isNamed = true → p.2.Stated source := by
  have hlead := h.isLead
  obtain ⟨w, rfl, rfl, hstray, -⟩ := h.token
  refine List.forall_mem_append.2 ⟨fun p hp _ => hlead.stated p hp,
    List.forall_mem_singleton.2 fun hnamed => ?_⟩
  rw [tree_eq hstray, Token.leafKind, if_neg (by decide)] at hnamed
  cases hnamed

/-- **A labeled statement has a label and a statement behind it.** -/
theorem exists_labeled (hview : viewOf cs = x :: hs) (hk : statementKind? x hs = some .labeledStatement)
    (h : DerivedFrom source [.phrase (.inside .labeledStatement)] (bareOf cs) ps rest) :
    ∃ t middle b, IsLabeled source x.toWord ps t middle b := by
  have h : DerivedFrom source ([.token .name] ++ ([.next] ++ [.phrase (.branch .body)])) (bareOf cs) ps
    rest := h.phrase
  obtain ⟨names, _, mid, rfl, hname, h⟩ := h.split
  obtain ⟨colons, _, mid', rfl, hcolon, hbody⟩ := h.split
  have hin : tokensOf (bareOf cs) <:+: tokens source := hname.tokens
  obtain ⟨w, hcs, rfl, hstray, -⟩ := hname.token
  obtain ⟨b, rfl, hb, hcomment⟩ := hbody.exists_branch (by decide)
  have hw := exists_of_bareOf_word hcs
  generalize w.token = t at hw
  subst hw
  have ht : t ∈ tokens source := hin.subset (by simp [hcs, Lexeme.tokens])
  obtain ⟨hisName, -⟩ := label_of_statementKind? hk
  have hx : x.toWord = t.word := by
    obtain ⟨_, _, hcs', rfl⟩ := exists_of_viewOf ((viewOf_bareOf cs).trans hview)
    cases hcs.symm.trans hcs'
    rfl
  have hkind : t.kind = .word := by
    unfold Word.isName at hisName
    rw [hx, Bool.and_eq_true, beq_iff_eq] at hisName
    exact hisName.1
  have hword : x.toWord = keyword t.text := by
    rw [hx, Token.word, hkind]
    rfl
  have hnamed := named_of_mem_tokens ht hkind
  refine ⟨t, colons ++ leadOf mid', b, hword, ?_, ht, isLabel_of_named hnamed (hword ▸ hisName), hnamed,
    ?_, hb, hcomment⟩
  · have hparts : Lexeme.parts ⟨[], t⟩ .name = [(.name, .leaf .name t.extent)] := by
      rw [Lexeme.parts, tree_eq hstray, Token.leafKind, if_pos rfl]
      rfl
    rw [hparts]
    simp
  · exact List.forall_mem_append.2 ⟨hcolon.stated_next, fun p hp _ => hbody.isLead.stated p hp⟩

/-- A statement that is no node is a semicolon. -/
theorem DerivedFrom.starts_semicolon {b : Tree} {lead : Parts}
    (h : DerivedFrom source [.phrase (.branch role)] cs (lead ++ [(role, b)]) rest)
    (hb : b.isNamed = false) : starts ";" (viewOf cs) = true := by
  have h : DerivedFrom source (if (viewOf cs).isEmpty then [.missing "statement"]
    else [.phrase (.statement role)]) cs (lead ++ [(role, b)]) rest := h.phrase
  split at h
  · cases h.derives
  · have h : DerivedFrom source (Phrase.expandStatement role (viewOf cs)) cs (lead ++ [(role, b)])
      rest := h.phrase
    cases hview : viewOf cs with
    | nil =>
      rw [hview] at h
      obtain ⟨hnil, -⟩ := h.of_nil
      simp at hnil
    | cons x hs =>
      have hnode : ∀ {kind}, ¬ DerivedFrom source [.node role kind] cs (lead ++ [(role, b)]) rest := by
        intro kind h
        obtain ⟨place, qs, -, -, hparts, -⟩ := h.node
        obtain ⟨-, hb'⟩ := List.append_inj' hparts rfl
        cases hb'
        cases hb
      rw [hview, Phrase.expandStatement] at h
      split at h
      · next hx => exact hx
      · split at h
        · exact (hnode h).elim
        · split at h
          · exact (hnode h).elim
          · cases h.derives

theorem Reads.of_branch {ss more : List Shape} (h : Reads [.phrase (.branch role)] ss more) :
    Reads [.phrase (.statement role)] ss more := by
  have h : Reads (if (sight ss).isEmpty then [.missing "statement"] else [.phrase (.statement role)]) ss
    more := h.of_phrase
  split at h
  · cases h
  · exact h

/-- The chunks of a label with a semicolon behind it. -/
theorem IsLabeled.exists_chunks {t : Token} {middle : Parts} {b : Tree}
    (hlabeled : IsLabeled source x.toWord ps t middle b) (hb : b.isNamed = false)
    (h : DerivedFrom source [.phrase (.inside .labeledStatement)] (bareOf cs) ps rest) :
    ∃ w v mid, bareOf cs = .word w :: .word v :: mid ∧ rest.length < mid.length ∧
      starts ";" (viewOf mid) = true := by
  have h : DerivedFrom source ([.token .name] ++ ([.next] ++ [.phrase (.branch .body)])) (bareOf cs) ps
    rest := h.phrase
  obtain ⟨names, _, _, hps, hname, hbehind⟩ := h.split
  obtain ⟨colons, bodies, mid, rfl, hcolon, hbody⟩ := hbehind.split
  obtain ⟨w, hcs, hnames, -⟩ := hname.token
  obtain ⟨v, rfl, -, -⟩ := hcolon.token
  obtain ⟨b', rfl, -, -⟩ := hbody.exists_branch (by decide)
  have hlast := hlabeled.parts.symm.trans hps
  rw [← List.append_assoc, ← List.append_assoc] at hlast
  obtain ⟨-, hb'⟩ := List.append_inj' hlast rfl
  obtain rfl : b = b' := congrArg Prod.snd (List.cons.inj hb').1
  exact ⟨w, v, mid, hcs, hbody.derives.length.2 (by simp), hbody.starts_semicolon hb⟩

theorem IsLabeled.isStatement {t : Token} {middle : Parts} {b : Tree} {edits : List Edit}
    {ss : List Shape} {used : List Token} (hlabeled : IsLabeled source x.toWord ps t middle b)
    (hb : b.isNamed = false) (hview : viewOf cs = x :: hs)
    (hk : statementKind? x hs = some .labeledStatement)
    (h : DerivedFrom source [.phrase (.inside .labeledStatement)] (bareOf cs) ps rest)
    (hss : Rereads edits [.phrase (.inside .labeledStatement)] (bareOf cs) rest ss used) :
    IsStatement ss := by
  have hmore : sight (shapesOf rest) = viewOf rest := sight_shapesOf rest
  have hreads : Reads [.token .name, .next, .phrase (.branch .body)] (ss ++ shapesOf rest)
    (shapesOf rest) := (hss.reads _ hmore).of_phrase
  obtain ⟨w, v, mid, hcs, hlt, hsemicolon⟩ := hlabeled.exists_chunks hb h
  have hlength := hss.length_eq
  have hsigns := hss.signs
  have hsound := hss.sound
  rw [hcs] at hlength hsigns
  rcases hreads.exists_word with rfl | ⟨w', _, rfl, hreads'⟩
  · simp at hlength
    omega
  rcases hreads'.exists_word with rfl | ⟨v', ss, rfl, hreads''⟩
  · simp at hlength
    omega
  have hne : ss ≠ [] := by
    rintro rfl
    simp at hlength
    omega
  simp only [List.map_cons, List.cons_append, List.cons.injEq] at hsigns
  obtain ⟨hsign, hsign', hsigns⟩ := hsigns
  obtain ⟨hsound', hrest⟩ := sound_singleton hsound
  obtain ⟨hsound'', hrest'⟩ := sound_singleton hrest
  have hbehind : sight (ss ++ shapesOf rest) = viewOf mid := Rereads.sight_eq hsigns hmore
  -- the label is the same word, and is followed by a colon
  have hsight : sight (.word w' :: .word v' :: ss ++ shapesOf rest) = x :: hs := by
    rw [Rereads.sight_eq hss.signs hmore, viewOf_bareOf, hview]
  obtain ⟨-, hcolon⟩ := label_of_statementKind? hk
  rw [List.cons_append, List.cons_append, sight_cons] at hsight
  obtain ⟨rfl, hhs⟩ := List.cons.inj hsight
  have hlabel : IsLabel w' := by
    have hword : w' = keyword t.text := hlabeled.word
    exact hword ▸ hlabeled.label
  have hsymbols := hlabel.symbol
  have hstops : (Shape.word w').head.stops = false := by
    show (w'.is ";" || w'.is leftBrace) = false
    rw [hsymbols ";" (by simp), hsymbols leftBrace (by simp)]
    rfl
  rw [hstops, if_neg Bool.false_ne_true] at hhs
  rw [← hhs, starts_sight] at hcolon
  refine isStatement_labeled hlabel ⟨hcolon, hsound''⟩
    (isStatement_of_reads hrest' hne (fun y ys kind hy _ => .inl ?_) hreads''.of_branch)
  rw [← hbehind, hy] at hsemicolon
  exact hsemicolon

/-- **A label with a semicolon behind it** is kept as it is. -/
theorem Renewal.isStatementText_empty {T : Tree} {edits : List Edit} (h : Renewal source T edits)
    {p : Printer} {text : List Char} (hview : viewOf cs = x :: hs)
    (hk : statementKind? x hs = some .labeledStatement)
    (hu : T.Has (.node .labeledStatement (extentOf place ps) ps)) (hps : ps ≠ [])
    (hinside : DerivedFrom source [.phrase (.inside .labeledStatement)] (bareOf cs) ps rest)
    {t : Token} {middle : Parts} {b : Tree} (hlabeled : IsLabeled source x.toWord ps t middle b)
    (hb : b.isNamed = false) (hp : p.nested = edits)
    (htext : splice (slice source (extentOf place ps).start.offset (extentOf place ps).stop.offset)
      (p.inside (extentOf place ps).range) = .ok text) : IsStatementText text := by
  obtain ⟨ss, within, used, hss, hwords, htidy⟩ := h.exists_rereads hu rfl hps hinside hp htext
  exact ⟨htidy, ss, hwords, hlabeled.isStatement hb hview hk hinside hss⟩

end BranchExclusion.Java
