import BranchExclusion.Proofs.Java.Depth
import BranchExclusion.Proofs.Java.Reading
import BranchExclusion.Proofs.Java.Spells
import BranchExclusion.Proofs.Source.Splice

/-!
# Blocks with new texts

A block can get a new text, when its statements are read without a syntax error. What stands around the
block is read as before.

* `Readable`: a text in braces whose statements are read;
* `writtenFor`: the words that are written for a token of the source;
* `Tree.Admits`: the blocks of a tree get new texts;
* `Derives.exists_reads`: what was derived from the source is read again.
-/

namespace BranchExclusion.Java

/-! ### New texts -/

/-- What stands in the braces of such a block. -/
def NodeKind.statements (kind : NodeKind) : Phrase :=
  if kind = .constructorBody then .constructorStatements else .statements

/-- The text stands in braces, and what they hold is read as the statements of a block of that
kind. -/
def Readable (kind : NodeKind) (text : List Char) : Prop :=
  kind.isBraced = true ∧ ∃ before ss, text = '{' :: (before ++ ['}']) ∧ Spells before (wordsIn ss) ∧
    Sound ss ∧ Reads [.phrase kind.statements] ss []

/-- A block in braces. -/
def blockShape (ss : List Shape) : Shape := .group (symbolWord '{') ss (symbolWord '}')

theorem words_readable {before : List Char} {ws : List Word} (h : Spells before ws) :
    Spells ('{' :: (before ++ ['}'])) (symbolWord '{' :: (ws ++ [symbolWord '}'])) :=
  (h.mark rfl spells_nil).symbol rfl

theorem sound_blockShape {ss rest : List Shape} (h : Sound ss) (h' : Sound rest) :
    Sound (blockShape ss :: rest) := .group rfl rfl rfl rfl h h'

/-! ### What is written for a token -/

/-- The words that are written for a token: none for a comment, those of a new text for the first token
of the stretch that it replaces, and none for the others in there. -/
def writtenFor (edits : List Edit) (t : Token) : List Word :=
  if t.isComment then []
  else
    match edits.find? fun e => e.range.contains t.extent.range with
    | some e => if t.extent.start.offset = e.range.start then words e.text.toList else []
    | none => [t.word]

section Written

variable {edits : List Edit} {e : Edit} {t : Token}

theorem writtenFor_comment (h : t.isComment = true) : writtenFor edits t = [] := by
  rw [writtenFor, if_pos h]

theorem flatMap_writtenFor_comments {ts : List Token} (h : ∀ t ∈ ts, t.isComment = true) :
    ts.flatMap (writtenFor edits) = [] :=
  List.flatMap_eq_nil_iff.2 fun t ht => writtenFor_comment (h t ht)

/-- A token that stands in no stretch is kept. -/
theorem writtenFor_apart (h : t.isComment = false)
    (hlt : t.extent.start.offset < t.extent.stop.offset)
    (hapart : ∀ e ∈ edits, e.range.Disjoint t.extent.range) : writtenFor edits t = [t.word] := by
  have hnone : (edits.find? fun e => e.range.contains t.extent.range) = none := by
    refine List.find?_eq_none.2 fun e he hin => ?_
    obtain ⟨hlo, hhi⟩ := ByteRange.contains_iff.1 hin
    have hlt' : t.extent.range.start < t.extent.range.stop := hlt
    rcases hapart e he with h | h <;> omega
  rw [writtenFor, h, if_neg Bool.false_ne_true, hnone]

theorem writtenFor_within (hedits : edits.Pairwise fun e f => e.range.Disjoint f.range)
    (he : e ∈ edits) (h : t.isComment = false)
    (hlt : t.extent.start.offset < t.extent.stop.offset)
    (hin : e.range.contains t.extent.range = true) : writtenFor edits t =
      if t.extent.start.offset = e.range.start then words e.text.toList else [] := by
  have hsome : (edits.find? fun e => e.range.contains t.extent.range) = some e := by
    cases hfind : edits.find? fun e => e.range.contains t.extent.range with
    | none => exact absurd hin (List.find?_eq_none.1 hfind e he)
    | some f =>
      have hf := List.mem_of_find?_eq_some hfind
      have hfin := List.find?_some hfind
      by_contra hne
      have : Std.Symm fun e f : Edit => e.range.Disjoint f.range := ⟨fun _ _ => ByteRange.Disjoint.symm⟩
      have hdisjoint := hedits.forall he hf fun heq => hne (congrArg some heq.symm)
      obtain ⟨hlo, hhi⟩ := ByteRange.contains_iff.1 hin
      obtain ⟨hlo', hhi'⟩ := ByteRange.contains_iff.1 hfin
      have hlt' : t.extent.range.start < t.extent.range.stop := hlt
      rcases hdisjoint with h | h <;> omega
  rw [writtenFor, h, if_neg Bool.false_ne_true, hsome]

/-- For the tokens of a stretch the new text is written once. -/
theorem flatMap_writtenFor_within {ts : List Token} {lo hi : ℕ}
    (hedits : edits.Pairwise fun e f => e.range.Disjoint f.range) (he : e ∈ edits)
    (h : t.isComment = false) (hstart : t.extent.start.offset = e.range.start)
    (hchained : Chained lo hi (t :: ts)) (hstop : ∀ v ∈ t :: ts, v.extent.stop.offset ≤ e.range.stop) :
    (t :: ts).flatMap (writtenFor edits) = words e.text.toList := by
  obtain ⟨hstop, hrest⟩ := List.forall_mem_cons.1 hstop
  obtain ⟨hlo, hlt, hchained⟩ := hchained
  have hfirst : writtenFor edits t = words e.text.toList := by
    rw [writtenFor_within hedits he h hlt, if_pos hstart]
    exact ByteRange.contains_iff.2 ⟨hstart.ge, hstop⟩
  have hothers : ts.flatMap (writtenFor edits) = [] := by
    refine List.flatMap_eq_nil_iff.2 fun v hv => ?_
    cases hcomment : v.isComment with
    | true => exact writtenFor_comment hcomment
    | false =>
      have hv' := hchained.of_mem hv
      rw [writtenFor_within hedits he hcomment hv'.2.1, if_neg (by omega)]
      refine ByteRange.contains_iff.2 ⟨?_, hrest v hv⟩
      show e.range.start ≤ v.extent.start.offset
      omega
  rw [List.flatMap_cons, hfirst, hothers, List.append_nil]

/-- Tokens that stand in no stretch are kept. -/
theorem flatMap_writtenFor_apart {ts : List Token}
    (h : ∀ t ∈ ts, t.extent.start.offset < t.extent.stop.offset ∧
      ∀ e ∈ edits, e.range.Disjoint t.extent.range) : ts.flatMap (writtenFor edits) = wordsOf ts := by
  induction ts with
  | nil => rfl
  | cons t ts ih =>
    obtain ⟨⟨hlt, hapart⟩, h⟩ := List.forall_mem_cons.1 h
    rw [List.flatMap_cons, ih h]
    cases hcomment : t.isComment with
    | true =>
      rw [writtenFor_comment hcomment]
      simp [wordsOf, hcomment]
    | false =>
      rw [writtenFor_apart hcomment hlt hapart]
      simp [wordsOf, hcomment]

end Written

/-! ### Trees with new texts -/

/-- The stretches that get new texts are blocks of the tree, or apart from it, and the texts fit. -/
inductive Tree.Admits (edits : List Edit) : Tree → Prop
  | leaf {kind : LeafKind} {e : Extent} : (∀ edit ∈ edits, edit.range.Disjoint e.range) →
      Admits edits (leaf kind e)
  | whole {kind : NodeKind} {e : Extent} {parts : List (Role × Tree)} {edit : Edit} :
      edit ∈ edits → edit.range = e.range → Readable kind edit.text.toList →
      Admits edits (node kind e parts)
  | node {kind : NodeKind} {e : Extent} {parts : List (Role × Tree)} :
      (∀ p ∈ parts, p.2.Admits edits) → Admits edits (node kind e parts)

/-! ### Reading again -/

/-- What the grammar sees of a chunk, and whether it is a semicolon. -/
def Chunk.sign (c : Chunk) : Head × Bool := (c.head, c.isSemicolon)

/-- What the grammar sees of a shape, and whether it is a semicolon. -/
def Shape.sign (s : Shape) : Head × Bool := (s.head, s.isSemicolon)

theorem view_congr (hs : List Head) {more more' : List Head} (h : view more = view more') :
    view (hs ++ more) = view (hs ++ more') := by
  induction hs with
  | nil => exact h
  | cons x hs ih =>
    rw [List.cons_append, List.cons_append, view, view]
    split
    · rfl
    · rw [ih]

/-- Brackets look the same when what they hold does. -/
theorem sign_group {o c : Lexeme} {inner : List Chunk} {ss : List Shape}
    (h : inner.map Chunk.sign = ss.map Shape.sign) : (Chunk.group o inner (some c)).sign =
      (Shape.group o.token.word ss c.token.word).sign := by
  have hany := congrArg (fun l => l.any Prod.snd) h
  simp only [List.any_map] at hany
  have hany : inner.any Chunk.isSemicolon = ss.any Shape.isSemicolon := hany
  simp only [Chunk.sign, Shape.sign, Chunk.head, Shape.head, hany]
  rfl

theorem length_bareOf (cs : List Chunk) : (bareOf cs).length = cs.length := by cases cs <;> rfl

/-- What was read of some chunks, and is read again when blocks get new texts: `ss` are the shapes for
the chunks that were used up, and `used` their tokens. -/
structure Rereads (edits : List Edit) (es : List Symbol) (cs rest : List Chunk) (ss : List Shape)
    (used : List Token) : Prop where
  tokens : tokensOf cs = used ++ tokensOf rest
  words : wordsIn ss = used.flatMap (writtenFor edits)
  sound : Sound ss
  signs : cs.map Chunk.sign = ss.map Shape.sign ++ rest.map Chunk.sign
  paired : Paired rest
  reads : ∀ more, sight more = viewOf rest → Reads es (ss ++ more) more

namespace Rereads

variable {edits : List Edit} {es es' : List Symbol} {cs mid rest : List Chunk}
  {ss ss' more : List Shape} {used used' : List Token}

/-- The grammar sees the same as before. -/
theorem sight_eq (h : cs.map Chunk.sign = ss.map Shape.sign ++ rest.map Chunk.sign)
    (hmore : sight more = viewOf rest) : sight (ss ++ more) = viewOf cs := by
  have hheads := congrArg (List.map Prod.fst) h
  simp only [List.map_append, List.map_map] at hheads
  have hheads : cs.map Chunk.head = ss.map Shape.head ++ rest.map Chunk.head := hheads
  rw [viewOf, hheads, sight, List.map_append]
  exact view_congr _ hmore

theorem nil (h : Paired cs) : Rereads edits [] cs cs [] [] :=
  ⟨rfl, rfl, .nil, rfl, h, fun _ _ => .nil⟩

theorem append (h : Rereads edits es cs mid ss used) (h' : Rereads edits es' mid rest ss' used') :
    Rereads edits (es ++ es') cs rest (ss ++ ss') (used ++ used') where
  tokens := by rw [h.tokens, h'.tokens, List.append_assoc]
  words := by rw [wordsIn_append, h.words, h'.words, List.flatMap_append]
  sound := h.sound.append h'.sound
  signs := by rw [h.signs, h'.signs, List.map_append, List.append_assoc]
  paired := h'.paired
  reads more hmore := by
    rw [List.append_assoc]
    exact (h.reads _ (sight_eq h'.signs hmore)).append (h'.reads more hmore)

theorem chained (h : Rereads edits es cs mid ss used) {lo hi : ℕ}
    (hchained : Chained lo hi (tokensOf cs)) : ∃ lo', Chained lo' hi (tokensOf mid) := by
  rw [h.tokens] at hchained
  obtain ⟨lo', -, hrest⟩ := chained_append.1 hchained
  exact ⟨lo', hrest⟩

theorem length_eq (h : Rereads edits es cs mid ss used) : cs.length = ss.length + mid.length := by
  simpa using congrArg List.length h.signs

variable {p : Phrase} {role : Role} {kind : NodeKind} {comments : List Token}

theorem phrase (h : Rereads edits (p.expand (viewOf cs)) cs mid ss used) :
    Rereads edits [.phrase p] cs mid ss used :=
  { h with
    reads := fun more hmore => by
      have hreads := h.reads more hmore
      rw [← sight_eq h.signs hmore] at hreads
      exact .to_phrase hreads }

theorem done (hp : p.expand (viewOf cs) = []) (h : Rereads edits es cs rest ss used) :
    Rereads edits (.many p :: es) cs rest ss used :=
  { h with
    reads := fun more hmore => .done ((sight_eq h.signs hmore).symm ▸ hp) (h.reads more hmore) }

theorem again (hp : p.expand (viewOf cs) ≠ []) (hlt : mid.length < cs.length)
    (h : Rereads edits (p.expand (viewOf cs)) cs mid ss used)
    (h' : Rereads edits (.many p :: es) mid rest ss' used') :
    Rereads edits (.many p :: es) cs rest (ss ++ ss') (used ++ used') :=
  { h.append h' with
    reads := fun more hmore => by
      have hmid := sight_eq h'.signs hmore
      have hreads := h.reads _ hmid
      rw [← sight_eq h.signs hmid] at hp hreads
      have hlength := h.length_eq
      rw [List.append_assoc]
      refine .more hp ?_ hreads (h'.reads more hmore)
      simp only [List.length_append]
      omega }

/-- A node behind the comments before it. -/
theorem node (hkind : kind ≠ .error) (hcomments : ∀ c ∈ comments, c.isComment = true)
    (htokens : tokensOf cs = comments ++ tokensOf (bareOf cs)) (hlt : mid.length < cs.length)
    (h : Rereads edits [.phrase (.inside kind)] (bareOf cs) mid ss used) :
    Rereads edits [.node role kind] cs mid ss (comments ++ used) where
  tokens := by rw [htokens, h.tokens, List.append_assoc]
  words := by rw [List.flatMap_append, flatMap_writtenFor_comments hcomments, h.words]; rfl
  sound := h.sound
  signs := by
    rw [← h.signs]
    cases cs with
    | nil => rfl
    | cons c cs => cases c <;> rfl
  paired := h.paired
  reads more hmore := by
    have hlength := h.length_eq
    rw [length_bareOf] at hlength
    refine .node hkind ?_ (h.reads more hmore) .nil
    rw [List.length_append]
    omega

end Rereads

/-- The comments before chunks. -/
theorem exists_tokensOf_bareOf {cs : List Chunk} (h : Paired cs) : Paired (bareOf cs) ∧
    ∃ comments : List Token, (∀ c ∈ comments, c.isComment = true) ∧
      tokensOf cs = comments ++ tokensOf (bareOf cs) := by
  cases h with
  | nil => exact ⟨.nil, [], List.forall_mem_nil _, rfl⟩
  | word hw hopens hrest =>
    refine ⟨(Paired.word hw hopens hrest).bare, _, hw.comments, ?_⟩
    simp [bareOf, Chunk.bare, Lexeme.tokens]
  | group ho hopens hclosing hinner hrest =>
    refine ⟨(Paired.group ho hopens hclosing hinner hrest).bare, _, ho.comments, ?_⟩
    simp [bareOf, Chunk.bare, Lexeme.tokens]

section Leaves

variable {edits : List Edit} {lo hi : ℕ} {w : Lexeme} {role : Role}

/-- A lexeme that stands in no stretch with a new text is kept, without its comments. -/
theorem flatMap_writtenFor_tokens (hproper : w.Proper) (hchained : Chained lo hi w.tokens)
    (hw : w.token.word.isStray = false) (h : ∀ p ∈ w.parts role, p.2.Admits edits) :
    w.tokens.flatMap (writtenFor edits) = [w.token.word] := by
  have htoken : w.token ∈ w.tokens := List.mem_concat_self ..
  have hleaf := h (role, w.token.tree role) (List.mem_concat_self ..)
  rw [tree_eq hw] at hleaf
  cases hleaf with
  | leaf hapart =>
    rw [Lexeme.tokens, List.flatMap_append, flatMap_writtenFor_comments hproper.comments,
      List.flatMap_singleton, writtenFor_apart hproper.token (hchained.of_mem htoken).2.1 hapart]
    rfl

/-- Chunks that are taken as they stand. -/
theorem Flat.exists_shapes {cs : List Chunk} {parts : Parts} (h : Flat cs parts) (hcs : Paired cs)
    (hchained : Chained lo hi (tokensOf cs)) (hadmits : ∀ p ∈ parts, p.2.Admits edits) :
    ∃ ss, wordsIn ss = (tokensOf cs).flatMap (writtenFor edits) ∧ Sound ss ∧
      cs.map Chunk.sign = ss.map Shape.sign := by
  induction h generalizing lo hi with
  | nil => exact ⟨[], rfl, .nil, rfl⟩
  | @word w cs parts hw _ ih =>
    cases hcs with
    | word hproper hopens hcs =>
      rw [tokensOf_cons, Chunk.tokens_word] at hchained ⊢
      obtain ⟨mid, hword, hrest⟩ := chained_append.1 hchained
      obtain ⟨hadmits, hadmits'⟩ := List.forall_mem_append.1 hadmits
      obtain ⟨ss, hwords, hsound, hsigns⟩ := ih hcs hrest hadmits'
      refine ⟨.word w.token.word :: ss, ?_, .word hopens hw.2 hw.1 hsound, ?_⟩
      · rw [wordsIn_cons, List.flatMap_append, flatMap_writtenFor_tokens hproper hword hw.1 hadmits,
          hwords, Shape.words_word]
      · rw [List.map_cons, List.map_cons, hsigns]
        rfl
  | @group o c inner cs ps parts ho hc _ _ ihinner ih =>
    cases hcs with
    | group hproper hopens hclosing hinner hcs =>
      obtain ⟨hproper', hcloses⟩ := hclosing c rfl
      rw [tokensOf_cons, Chunk.tokens_group] at hchained ⊢
      obtain ⟨stop, hgroup, hrest⟩ := chained_append.1 hchained
      obtain ⟨close, hgroup, hlast⟩ := chained_append.1 hgroup
      obtain ⟨start, hfirst, hheld⟩ := chained_append.1 hgroup
      simp only [List.forall_mem_append] at hadmits
      obtain ⟨⟨⟨hadmits, hadmits₁⟩, hadmits₂⟩, hadmits₃⟩ := hadmits
      obtain ⟨ss₁, hwords₁, hsound₁, hsigns₁⟩ := ihinner hinner hheld hadmits₁
      obtain ⟨ss, hwords, hsound, hsigns⟩ := ih hcs hrest hadmits₃
      refine ⟨.group o.token.word ss₁ c.token.word :: ss, ?_,
        .group hopens hcloses ho hc hsound₁ hsound, ?_⟩
      · simp only [wordsIn_cons, Shape.words_group, List.flatMap_append, Option.map_some,
          Option.getD_some, flatMap_writtenFor_tokens hproper hfirst ho hadmits,
          flatMap_writtenFor_tokens hproper' hlast hc hadmits₂, hwords₁, hwords]
        simp
      · rw [List.map_cons, List.map_cons, hsigns, sign_group hsigns₁]

end Leaves

/-! ### A block with a new text -/

theorem exists_of_bareOf {cs rest : List Chunk} {o : Lexeme} {inner : List Chunk}
    {closing : Option Lexeme} (h : bareOf cs = .group o inner closing :: rest) :
    ∃ comments t, o = ⟨[], t⟩ ∧ cs = .group ⟨comments, t⟩ inner closing :: rest := by
  cases cs with
  | nil => cases h
  | cons d cs =>
    cases d with
    | word w => cases h
    | group o' inner' closing' =>
      cases h
      exact ⟨o'.comments, o'.token, rfl, rfl⟩

theorem extent_tree (t : Token) (role : Role) : (t.tree role).extent = t.extent := by
  unfold Token.tree
  dsimp only
  split <;> rfl

/-- From the opening bracket to the closing one. -/
theorem range_extentOf (place : Place) {t : Token} {ps : Parts} (c : Lexeme) :
    (extentOf place (Lexeme.parts ⟨[], t⟩ .part ++ ps ++ c.parts .part)).range =
      ⟨t.extent.start.offset, c.token.extent.stop.offset⟩ := by
  have hhead : (Lexeme.parts ⟨[], t⟩ .part ++ ps ++ c.parts .part).head? =
      some (.part, t.tree .part) := rfl
  have hlast : (Lexeme.parts ⟨[], t⟩ .part ++ ps ++ c.parts .part).getLast? =
      some (.part, c.token.tree .part) := by
    rw [Lexeme.parts, Lexeme.parts, ← List.append_assoc, List.getLast?_concat]
  rw [extentOf, hhead, hlast]
  simp only [Option.map_some, Option.getD_some, extent_tree]
  rfl

theorem eq_symbolWord {comments : List Token} {t : Token}
    (hproper : Lexeme.Proper ⟨comments, t⟩) (hopens : t.word.opens = true)
    (h : t.word.is leftBrace = true) : t.word = symbolWord '{' := by
  have hkind := hproper.symbol hopens
  rw [Word.is, beq_iff_eq] at h
  cases hw : t.word with
  | mk kind text =>
    rw [hw] at hkind h
    dsimp only at hkind h
    rw [hkind, h]
    rfl

theorem exists_rereads_whole {edits : List Edit} {edit : Edit} {role : Role} {kind : NodeKind}
    {place : Place} {cs mid : List Chunk} {ps : Parts} {lo hi : ℕ}
    (hedits : edits.Pairwise fun e f => e.range.Disjoint f.range) (he : edit ∈ edits)
    (hrange : edit.range = (extentOf place ps).range) (hreadable : Readable kind edit.text.toList)
    (hinside : Derives [.phrase (.inside kind)] (bareOf cs) ps mid) (hcs : Paired cs)
    (hchained : Chained lo hi (tokensOf cs)) :
    ∃ ss used, Rereads edits [.node role kind] cs mid ss used := by
  obtain ⟨hbraced, before, ss, htext, hspells, hsound, hreads⟩ := hreadable
  have hp : Derives [.group leftBrace kind.statements] (bareOf cs) ps mid := by
    cases kind <;> first | exact derives_phrase hinside | cases hbraced
  generalize hbare : bareOf cs = bare at hp
  cases hp with
  | @group _ _ o c _ inner _ _ ps' more hopening ho hc hinner hnil =>
    cases hnil
    obtain ⟨comments, t, rfl, rfl⟩ := exists_of_bareOf hbare
    cases hcs with
    | group hproper hopens hclosing hpaired hcs =>
      rw [List.append_nil, range_extentOf place c] at hrange
      have htokens : tokensOf (.group ⟨comments, t⟩ inner (some c) :: mid) =
          comments ++ (t :: (tokensOf inner ++ c.comments ++ [c.token])) ++ tokensOf mid := by
        simp [Lexeme.tokens]
      rw [htokens] at hchained
      obtain ⟨stop, hheld, -⟩ := chained_append.1 hchained
      obtain ⟨start, -, hheld⟩ := chained_append.1 hheld
      have hstop : ∀ v ∈ (t :: (tokensOf inner ++ c.comments)) ++ [c.token],
          v.extent.stop.offset ≤ edit.range.stop := by
        rw [hrange]
        exact hheld.stop_le
      have hwords := flatMap_writtenFor_within hedits he hproper.token
        (congrArg ByteRange.start hrange).symm hheld hstop
      have hword := eq_symbolWord hproper hopens hopening
      refine ⟨[blockShape ss], comments ++ (t :: (tokensOf inner ++ c.comments ++ [c.token])), {
        tokens := htokens
        words := ?_
        sound := sound_blockShape hsound .nil
        signs := ?_
        paired := hcs
        reads := fun more hmore => ?_ }⟩
      · rw [List.flatMap_append, flatMap_writtenFor_comments hproper.comments, hwords, htext,
          (words_readable hspells).eq]
        simp [blockShape]
      · have hsign : Chunk.sign (.group ⟨comments, t⟩ inner (some c)) = (blockShape ss).sign := by
          simp only [Chunk.sign, Shape.sign, Chunk.head, blockShape, Shape.head, hword]
          rfl
        rw [List.map_cons, hsign]
        rfl
      · have hexpand : (Phrase.inside kind).expand (sight (blockShape ss :: more)) =
            [.group leftBrace kind.statements] := by
          cases kind <;> first | rfl | cases hbraced
        have hkind' : kind ≠ .error := by
          rintro rfl
          cases hbraced
        refine .node hkind' (Nat.lt_succ_self _) (.to_phrase ?_) .nil
        rw [List.singleton_append, hexpand]
        exact .group rfl hreads .nil

/-- A derivation gives a part only for chunks that it takes. -/
theorem Derives.length {es : List Symbol} {cs rest : List Chunk} {parts : Parts}
    (h : Derives es cs parts rest) :
    rest.length ≤ cs.length ∧ (parts ≠ [] → rest.length < cs.length) := by
  induction h with
  | nil => exact ⟨Nat.le_refl _, fun h => absurd rfl h⟩
  | token _ _ ih => exact ⟨Nat.le_succ_of_le ih.1, fun _ => Nat.lt_succ_of_le ih.1⟩
  | @raw taken cs rest ss ps parts hflat _ ih =>
    rw [List.length_append]
    refine ⟨Nat.le_add_left_of_le ih.1, fun hne => ?_⟩
    by_cases hparts : parts = []
    · have htaken : taken ≠ [] := by
        rintro rfl
        cases hflat
        exact hne hparts
      have := List.length_pos_iff.2 htaken
      omega
    · have := ih.2 hparts
      omega
  | group _ _ _ _ _ _ ih => exact ⟨Nat.le_succ_of_le ih.1, fun _ => Nat.lt_succ_of_le ih.1⟩
  | @node _ _ _ _ cs _ _ _ _ _ hps _ _ ihinside ih =>
    have := ihinside.2 hps
    rw [length_bareOf] at this
    exact ⟨ih.1.trans this.le, fun _ => ih.1.trans_lt this⟩
  | @phrase _ _ _ _ _ ps parts _ _ ihp ih =>
    refine ⟨ih.1.trans ihp.1, fun hne => ?_⟩
    by_cases hparts : parts = []
    · exact ih.1.trans_lt (ihp.2 fun hps => hne (List.append_eq_nil_iff.2 ⟨hps, hparts⟩))
    · exact (ih.2 hparts).trans_le ihp.1
  | done _ _ ih => exact ih
  | more _ hlt _ _ _ ih => exact ⟨ih.1.trans hlt.le, fun _ => ih.1.trans_lt hlt⟩

/-! ### One symbol -/

section OneSymbol

variable {edits : List Edit} {role : Role} {cs : List Chunk} {parts : Parts} {lo hi : ℕ}

theorem rereads_token {w : Lexeme}
    (hw : w.token.word.isStray = false ∧ w.token.word.closes = false) (hproper : w.Proper)
    (hopens : w.token.word.opens = false) (hcs : Paired cs) (hchained : Chained lo hi w.tokens)
    (hadmits : ∀ p ∈ w.parts role, p.2.Admits edits) :
    Rereads edits [.token role] (.word w :: cs) cs [.word w.token.word] w.tokens where
  tokens := by rw [tokensOf_cons, Chunk.tokens_word]
  words := by rw [flatMap_writtenFor_tokens hproper hchained hw.1 hadmits]; simp
  sound := .word hopens hw.2 hw.1 .nil
  signs := rfl
  paired := hcs
  reads _ _ := .token .nil

theorem exists_rereads_raw {taken : List Chunk} (hflat : Flat taken parts) (htaken : Paired taken)
    (hcs : Paired cs) (hchained : Chained lo hi (tokensOf taken))
    (hadmits : ∀ p ∈ parts, p.2.Admits edits) :
    ∃ ss used, Rereads edits [.raw taken.length] (taken ++ cs) cs ss used := by
  obtain ⟨ss, hwords, hsound, hsigns⟩ := hflat.exists_shapes htaken hchained hadmits
  have hlength : taken.length = ss.length := by simpa using congrArg List.length hsigns
  refine ⟨ss, tokensOf taken, {
    tokens := tokensOf_append ..
    words := hwords
    sound := hsound
    signs := by rw [List.map_append, hsigns]
    paired := hcs
    reads := fun _ _ => hlength ▸ .raw .nil }⟩

/-- Brackets are read again when all that they hold is. -/
theorem rereads_group {opening : String} {p : Phrase} {o c : Lexeme} {inner : List Chunk}
    {ss : List Shape} {used : List Token} (hopening : o.token.word.is opening = true)
    (hopens : o.token.word.opens = true) (hcloses : c.token.word.is (closerOf o.token.word) = true)
    (ho : o.token.word.isStray = false) (hc : c.token.word.isStray = false) (hcs : Paired cs)
    (hfirst : o.tokens.flatMap (writtenFor edits) = [o.token.word])
    (hlast : c.tokens.flatMap (writtenFor edits) = [c.token.word])
    (h : Rereads edits [.phrase p] inner [] ss used) :
    Rereads edits [.group opening p] (.group o inner (some c) :: cs) cs
      [.group o.token.word ss c.token.word] (o.tokens ++ tokensOf inner ++ c.tokens) := by
  have htokens := h.tokens
  have hsigns := h.signs
  have hreads := h.reads [] rfl
  rw [tokensOf_nil, List.append_nil] at htokens
  rw [List.map_nil, List.append_nil] at hsigns
  rw [List.append_nil] at hreads
  exact {
    tokens := by rw [tokensOf_cons, Chunk.tokens_group]; rfl
    words := by
      simp only [wordsIn_cons, wordsIn_nil, Shape.words_group, List.flatMap_append, htokens, hfirst,
        h.words, hlast]
      simp
    sound := .group hopens hcloses ho hc h.sound .nil
    signs := by rw [List.map_cons, sign_group hsigns]; rfl
    paired := hcs
    reads := fun _ _ => .group hopening hreads .nil }

end OneSymbol

section Main

variable {edits : List Edit}
  (hedits : edits.Pairwise fun e f => e.range.Disjoint f.range)
include hedits

/-- A node is a block that gets a new text, or is read again from what it holds. -/
theorem exists_rereads_node {role : Role} {kind : NodeKind} {place : Place} {cs mid : List Chunk}
    {ps : Parts} {lo hi : ℕ} (hkind : kind ≠ .error) (hps : ps ≠ [])
    (hinside : Derives [.phrase (.inside kind)] (bareOf cs) ps mid) (hcs : Paired cs)
    (hchained : Chained lo hi (tokensOf cs))
    (hadmits : (Tree.node kind (extentOf place ps) ps).Admits edits)
    (hparts : ∀ {lo}, Chained lo hi (tokensOf (bareOf cs)) → (∀ p ∈ ps, p.2.Admits edits) →
      ∃ ss used, Rereads edits [.phrase (.inside kind)] (bareOf cs) mid ss used) :
    ∃ ss used, Rereads edits [.node role kind] cs mid ss used := by
  cases hadmits with
  | whole he hrange hreadable =>
    exact exists_rereads_whole hedits he hrange hreadable hinside hcs hchained
  | node hadmits =>
    obtain ⟨-, comments, hcomments, htokens⟩ := exists_tokensOf_bareOf hcs
    rw [htokens] at hchained
    obtain ⟨start, -, hchained⟩ := chained_append.1 hchained
    obtain ⟨ss, used, hss⟩ := hparts hchained hadmits
    have hlt := hinside.length.2 hps
    rw [length_bareOf] at hlt
    exact ⟨_, _, .node hkind hcomments htokens hlt hss⟩

/-- **What was derived is read again when blocks get new texts.** -/
theorem Derives.exists_reads {es : List Symbol} {cs rest : List Chunk} {parts : Parts}
    (h : Derives es cs parts rest) (hcs : Paired cs) {lo hi : ℕ}
    (hchained : Chained lo hi (tokensOf cs)) (hadmits : ∀ p ∈ parts, p.2.Admits edits) :
    ∃ ss used, Rereads edits es cs rest ss used := by
  induction h generalizing lo hi with
  | nil => exact ⟨[], [], .nil hcs⟩
  | @token role w es cs rest parts hw _ ih =>
    cases hcs with
    | word hproper hopens hcs =>
      rw [tokensOf_cons, Chunk.tokens_word] at hchained
      obtain ⟨mid, hword, hrest⟩ := chained_append.1 hchained
      obtain ⟨hadmits, hadmits'⟩ := List.forall_mem_append.1 hadmits
      obtain ⟨ss, used, hss⟩ := ih hcs hrest hadmits'
      exact ⟨_, _, (rereads_token hw hproper hopens hcs hword hadmits).append hss⟩
  | @raw taken cs rest es ps parts hflat _ ih =>
    rw [tokensOf_append] at hchained
    obtain ⟨mid, htaken, hrest⟩ := chained_append.1 hchained
    obtain ⟨hpaired, hcs⟩ := paired_append.1 hcs
    obtain ⟨hadmits, hadmits'⟩ := List.forall_mem_append.1 hadmits
    obtain ⟨ss₁, used₁, hss₁⟩ := exists_rereads_raw hflat hpaired hcs htaken hadmits
    obtain ⟨ss, used, hss⟩ := ih hcs hrest hadmits'
    exact ⟨_, _, hss₁.append hss⟩
  | @group opening p o c es inner cs rest ps parts hopening ho hc _ _ ihinner ih =>
    cases hcs with
    | group hproper hopens hclosing hinner hcs =>
      obtain ⟨hproper', hcloses⟩ := hclosing c rfl
      rw [tokensOf_cons, Chunk.tokens_group] at hchained
      obtain ⟨stop, hgroup, hrest⟩ := chained_append.1 hchained
      obtain ⟨close, hgroup, hlast⟩ := chained_append.1 hgroup
      obtain ⟨start, hfirst, hheld⟩ := chained_append.1 hgroup
      simp only [List.forall_mem_append] at hadmits
      obtain ⟨⟨⟨hadmits, hadmits₁⟩, hadmits₂⟩, hadmits₃⟩ := hadmits
      obtain ⟨ss₁, used₁, hss₁⟩ := ihinner hinner hheld hadmits₁
      obtain ⟨ss, used, hss⟩ := ih hcs hrest hadmits₃
      have hgroup := rereads_group hopening hopens hcloses ho hc hcs
        (flatMap_writtenFor_tokens hproper hfirst ho hadmits)
        (flatMap_writtenFor_tokens hproper' hlast hc hadmits₂) hss₁
      exact ⟨_, _, hgroup.append hss⟩
  | node hkind hps hinside _ ihinside ih =>
    obtain ⟨-, hadmits⟩ := List.forall_mem_append.1 hadmits
    obtain ⟨hnode, hadmits⟩ := List.forall_mem_cons.1 hadmits
    obtain ⟨ss₁, used₁, hss₁⟩ := exists_rereads_node hedits hkind hps hinside hcs hchained hnode
      (ihinside (exists_tokensOf_bareOf hcs).1)
    obtain ⟨lo', hrest⟩ := hss₁.chained hchained
    obtain ⟨ss, used, hss⟩ := ih hss₁.paired hrest hadmits
    exact ⟨_, _, hss₁.append hss⟩
  | phrase _ _ ihp ih =>
    obtain ⟨hadmits, hadmits'⟩ := List.forall_mem_append.1 hadmits
    obtain ⟨ss₁, used₁, hss₁⟩ := ihp hcs hchained hadmits
    obtain ⟨lo', hrest⟩ := hss₁.chained hchained
    obtain ⟨ss, used, hss⟩ := ih hss₁.paired hrest hadmits'
    exact ⟨_, _, hss₁.phrase.append hss⟩
  | done hp _ ih =>
    obtain ⟨ss, used, hss⟩ := ih hcs hchained hadmits
    exact ⟨_, _, .done hp hss⟩
  | more hp hlt _ _ ihp ih =>
    obtain ⟨hadmits, hadmits'⟩ := List.forall_mem_append.1 hadmits
    obtain ⟨ss₁, used₁, hss₁⟩ := ihp hcs hchained hadmits
    obtain ⟨lo', hrest⟩ := hss₁.chained hchained
    obtain ⟨ss, used, hss⟩ := ih hss₁.paired hrest hadmits'
    exact ⟨_, _, .again hp hlt hss₁ hss⟩

end Main

end BranchExclusion.Java
