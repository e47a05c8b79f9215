import BranchExclusion.Proofs.Java.Grammar
import BranchExclusion.Proofs.Java.Token

/-!
# Reading a source

A source that is read without a syntax error has a well-formed tree.

* `Standing`: parts that are in order and well formed;
* `Derives.standing`: derived parts are;
* `Tree.wellFormed_ofSource`: the tree of a source without syntax errors is well formed.
-/

namespace BranchExclusion.Java

variable {lo mid hi : ℕ} {ps qs parts : Parts} {w : Lexeme} {role : Role}

/-! ### Parts in order -/

/-- The parts stand between two offsets, are well formed, and those in braces start with one. -/
structure Standing (lo hi : ℕ) (parts : Parts) : Prop where
  inOrder : Tree.InOrder lo hi (parts.map Prod.snd)
  wellFormed : ∀ p ∈ parts, p.2.WellFormed
  braced : ∀ p ∈ parts, p.2.kind?.any NodeKind.isBraced = true → p.2.StartsWithBrace
  solid : ∀ p ∈ parts, p.2.kind? = none → p.2.start < p.2.stop

theorem standing_nil (h : lo ≤ hi) : Standing lo hi [] :=
  ⟨h, List.forall_mem_nil _, List.forall_mem_nil _, List.forall_mem_nil _⟩

theorem Standing.append (h : Standing lo mid ps) (h' : Standing mid hi qs) :
    Standing lo hi (ps ++ qs) := by
  refine ⟨?_, fun p hp => (List.mem_append.1 hp).elim (h.wellFormed p) (h'.wellFormed p),
    fun p hp => (List.mem_append.1 hp).elim (h.braced p) (h'.braced p),
    fun p hp => (List.mem_append.1 hp).elim (h.solid p) (h'.solid p)⟩
  rw [List.map_append]
  exact h.inOrder.append h'.inOrder

theorem standing_leaves {ts : List Token} (f : Token → Role × LeafKind)
    (h : Chained lo hi ts) :
    Standing lo hi (ts.map fun t => ((f t).1, .leaf (f t).2 t.extent)) := by
  induction ts generalizing lo with
  | nil => exact standing_nil h
  | cons t ts ih =>
    obtain ⟨hlo, hlt, h⟩ := h
    have hleaf : Standing lo t.extent.stop.offset [((f t).1, .leaf (f t).2 t.extent)] :=
      ⟨⟨hlo, Nat.le_of_lt hlt, Nat.le_refl _⟩,
        List.forall_mem_singleton.2 (.leaf _ (Nat.le_of_lt hlt)),
        List.forall_mem_singleton.2 fun h => (nomatch h), List.forall_mem_singleton.2 fun _ => hlt⟩
    exact hleaf.append (ih h)

theorem standing_lead (h : Chained lo hi w.comments) : Standing lo hi w.lead :=
  standing_leaves (fun _ => (.part, .comment)) h

theorem standing_parts (hw : w.token.word.isStray = false) (role : Role)
    (h : Chained lo hi w.tokens) : Standing lo hi (w.parts role) := by
  obtain ⟨mid, hcomments, htoken⟩ := chained_append.1 h
  rw [Lexeme.parts, tree_eq hw]
  exact (standing_lead hcomments).append (standing_leaves (fun t => (role, t.leafKind role)) htoken)

/-- Chunks that are taken as they stand. -/
theorem Flat.standing {cs : List Chunk} (h : Flat cs parts) (hcs : Chained lo hi (tokensOf cs)) :
    Standing lo hi parts := by
  induction h generalizing lo hi with
  | nil => exact standing_nil (by simpa using hcs.le)
  | word hw _ ih =>
    rw [tokensOf_cons, Chunk.tokens_word] at hcs
    obtain ⟨mid, hword, hrest⟩ := chained_append.1 hcs
    exact (standing_parts hw.1 .part hword).append (ih hrest)
  | group ho hc _ _ ihinner ih =>
    rw [tokensOf_cons, Chunk.tokens_group] at hcs
    obtain ⟨stop, hgroup, hrest⟩ := chained_append.1 hcs
    obtain ⟨close, hgroup, hclosing⟩ := chained_append.1 hgroup
    obtain ⟨start, hopening, hinner⟩ := chained_append.1 hgroup
    exact (((standing_parts ho .part hopening).append (ihinner hinner)).append
      (standing_parts hc .part hclosing)).append (ih hrest)

/-! ### Nodes -/

theorem Tree.InOrder.tight {first last : Tree} {trees : List Tree} (h : Tree.InOrder lo hi trees)
    (hfirst : trees.head? = some first) (hlast : trees.getLast? = some last) :
    lo ≤ first.start ∧ last.stop ≤ hi ∧ Tree.InOrder first.start last.stop trees := by
  induction trees generalizing lo first with
  | nil => cases hfirst
  | cons t rest ih =>
    obtain rfl : t = first := Option.some.inj hfirst
    obtain ⟨hlo, hle, hrest⟩ := h
    cases rest with
    | nil =>
      obtain rfl : t = last := Option.some.inj hlast
      exact ⟨hlo, hrest, Nat.le_refl _, hle, Nat.le_refl _⟩
    | cons u rest =>
      obtain ⟨-, hhi, htight⟩ := ih hrest rfl (by simpa using hlast)
      exact ⟨hlo, hhi, Nat.le_refl _, hle, htight.mono hrest.1 (Nat.le_refl _)⟩

namespace Standing

/-- The parts reach from the start of the first one to the end of the last one. -/
theorem extentOf_bounds (h : Standing lo hi parts) (hne : parts ≠ []) (place : Place) :
    lo ≤ (extentOf place parts).start.offset ∧ (extentOf place parts).stop.offset ≤ hi ∧
      Tree.InOrder (extentOf place parts).start.offset (extentOf place parts).stop.offset
        (parts.map Prod.snd) := by
  obtain ⟨first, hfirst⟩ := Option.ne_none_iff_exists'.1 (mt List.head?_eq_none_iff.1 hne)
  obtain ⟨last, hlast⟩ := Option.ne_none_iff_exists'.1 (mt List.getLast?_eq_none_iff.1 hne)
  have hextent : extentOf place parts = ⟨first.2.extent.start, last.2.extent.stop⟩ := by
    rw [extentOf, hfirst, hlast]
    rfl
  rw [hextent]
  exact h.inOrder.tight (by rw [List.head?_map, hfirst]; rfl)
    (by rw [List.getLast?_map, hlast]; rfl)

theorem inOrder_extentOf (h : Standing lo hi parts) (place : Place) :
    Tree.InOrder (extentOf place parts).start.offset (extentOf place parts).stop.offset
      (parts.map Prod.snd) := by
  by_cases hne : parts = []
  · subst hne
    exact Nat.le_refl _
  · exact (h.extentOf_bounds hne place).2.2

end Standing

namespace Tree

/-- What is in braces starts with one. -/
theorem startsWithBrace_of_derives {kind : NodeKind} {e : Extent} {cs rest : List Chunk}
    (h : Derives [.phrase (.inside kind)] (bareOf cs) parts rest) (hkind : kind.isBraced = true)
    (hparts : Standing lo hi parts) : (node kind e parts).StartsWithBrace := by
  obtain ⟨p, hp⟩ : ∃ p, Derives [.group leftBrace p] (bareOf cs) parts rest := by
    cases kind <;> first | exact ⟨_, derives_phrase h⟩ | cases hkind
  generalize hcs : bareOf cs = bare at hp
  cases hp with
  | @group _ _ o c _ inner _ _ ps more hopening ho hc hinner hnil =>
    -- no comment stands before the brace
    obtain ⟨o, rfl⟩ : ∃ t, o = ⟨[], t⟩ := by
      cases cs with
      | nil => cases hcs
      | cons d cs =>
        cases d with
        | word w => cases hcs
        | group o inner closing =>
          cases hcs
          exact ⟨_, rfl⟩
    have hhead : ((.part, o.tree .part) : Role × Tree) ∈ (Lexeme.parts ⟨[], o⟩ .part ++ ps ++
        c.parts .part ++ more).head? := rfl
    have hleaf : o.tree .part = .leaf (.fixed o.text) o.extent := tree_eq ho .part
    have hmem := List.mem_of_mem_head? hhead
    rw [hleaf] at hhead hmem
    refine ⟨_, hhead, ?_, hparts.solid _ hmem rfl⟩
    simp only [isFixed, beq_iff_eq]
    simp only [Token.word, Word.is, beq_iff_eq] at hopening
    split_ifs at hopening with hquoted
    · exact absurd hopening (by decide)
    · exact hopening

/-- A node is well formed when its parts stand one behind the other. -/
theorem wellFormed_of_derives {kind : NodeKind} (place : Place) {cs rest : List Chunk}
    (h : Derives [.phrase (.inside kind)] (bareOf cs) parts rest) (hparts : Standing lo hi parts) :
    (node kind (extentOf place parts) parts).WellFormed := by
  refine .node (hparts.inOrder_extentOf place) (fun b hb => ?_) (fun hkind => ?_) hparts.wellFormed
  · obtain ⟨p, hp, rfl, hbraced⟩ : ∃ p ∈ parts, p.2 = b ∧
        p.2.kind?.any NodeKind.isBraced = true := by
      have hbody (hcallable : kind.isCallable = true) (hb : b ∈ (part? .body parts).toList) :
          ∃ p ∈ parts, p.2 = b ∧ p.2.kind?.any NodeKind.isBraced = true := by
        have hp := mem_of_part? (Option.mem_toList.1 hb)
        exact ⟨_, hp, rfl, (h.takes_inside _ hp rfl).1 hcallable⟩
      cases kind
      case method => exact hbody rfl hb
      case constructor => exact hbody rfl hb
      case compactConstructor => exact hbody rfl hb
      case staticInitializer => exact hbody rfl hb
      case lambda => exact hbody rfl hb
      case classBody =>
        obtain ⟨hb, hblock⟩ := List.mem_filter.1 hb
        obtain ⟨p, hp, rfl⟩ := List.mem_map.1 hb
        rw [isNode_eq, beq_iff_eq] at hblock
        exact ⟨p, hp, rfl, by rw [hblock]; rfl⟩
      all_goals exact absurd hb List.not_mem_nil
    exact hparts.braced p hp hbraced
  · subst hkind
    refine ⟨h.countFinally_try, fun p hp hbody => ?_⟩
    rw [isHandler_eq]
    exact (h.takes_inside p hp hbody).2

end Tree

/-- **What is derived from tokens in order stands in order and is well formed.** -/
theorem Derives.standing {ss : List Symbol} {cs rest : List Chunk} (h : Derives ss cs parts rest) :
    ∃ used, tokensOf cs = used ++ tokensOf rest ∧
      ∀ lo hi, Chained lo hi used → Standing lo hi parts := by
  induction h with
  | nil => exact ⟨[], rfl, fun lo hi h => standing_nil h⟩
  | @token role w ss cs rest parts hw _ ih =>
    obtain ⟨used, hused, hstanding⟩ := ih
    refine ⟨w.tokens ++ used, ?_, fun lo hi h => ?_⟩
    · rw [tokensOf_cons, Chunk.tokens_word, hused, List.append_assoc]
    · obtain ⟨mid, hword, hrest⟩ := chained_append.1 h
      exact (standing_parts hw.1 role hword).append (hstanding _ _ hrest)
  | @raw taken cs rest ss ps parts hflat _ ih =>
    obtain ⟨used, hused, hstanding⟩ := ih
    refine ⟨tokensOf taken ++ used, ?_, fun lo hi h => ?_⟩
    · rw [tokensOf_append, hused, List.append_assoc]
    · obtain ⟨mid, htaken, hrest⟩ := chained_append.1 h
      exact (hflat.standing htaken).append (hstanding _ _ hrest)
  | @group opening p o c ss inner cs rest ps parts hopening ho hc _ _ ihinner ih =>
    obtain ⟨held, hheld, hinner⟩ := ihinner
    obtain ⟨used, hused, hstanding⟩ := ih
    rw [tokensOf_nil, List.append_nil] at hheld
    refine ⟨o.tokens ++ held ++ c.tokens ++ used, ?_, fun lo hi h => ?_⟩
    · rw [tokensOf_cons, Chunk.tokens_group, hheld, hused]
      simp
    · obtain ⟨stop, hgroup, hrest⟩ := chained_append.1 h
      obtain ⟨close, hgroup, hclosing⟩ := chained_append.1 hgroup
      obtain ⟨start, hstart, hheld⟩ := chained_append.1 hgroup
      exact (((standing_parts ho .part hstart).append (hinner _ _ hheld)).append
        (standing_parts hc .part hclosing)).append (hstanding _ _ hrest)
  | @node role kind place ss cs mid rest ps parts hkind hne hinside _ ihinside ih =>
    obtain ⟨held, hheld, hinner⟩ := ihinside
    obtain ⟨used, hused, hstanding⟩ := ih
    have hlead : ∃ comments, tokensOf cs = comments ++ tokensOf (bareOf cs) ∧
        ∀ lo hi, Chained lo hi comments → Standing lo hi (leadOf cs) := by
      cases cs with
      | nil => exact ⟨[], rfl, fun lo hi h => standing_nil h⟩
      | cons c cs =>
        refine ⟨c.first.comments, ?_, fun lo hi h => standing_lead h⟩
        rw [tokensOf_cons, c.tokens_bare, List.append_assoc]
        exact congrArg _ (tokensOf_cons ..).symm
    obtain ⟨comments, hcomments, hlead⟩ := hlead
    refine ⟨comments ++ (held ++ used), ?_, fun lo hi h => ?_⟩
    · rw [hcomments, hheld, hused]
      simp
    · obtain ⟨start, hbefore, h⟩ := chained_append.1 h
      obtain ⟨stop, hnode, hrest⟩ := chained_append.1 h
      have hps := hinner _ _ hnode
      obtain ⟨hlo, hhi, -⟩ := hps.extentOf_bounds hne place
      have hwell := Tree.wellFormed_of_derives place hinside hps
      have hpart : Standing start stop [(role, .node kind (extentOf place ps) ps)] :=
        ⟨⟨hlo, hwell.le, hhi⟩, List.forall_mem_singleton.2 hwell,
          List.forall_mem_singleton.2 fun hbraced =>
            Tree.startsWithBrace_of_derives hinside hbraced hps,
          List.forall_mem_singleton.2 fun h => (nomatch h)⟩
      exact (hlead _ _ hbefore).append (hpart.append (hstanding _ _ hrest))
  | phrase _ _ ihp ih =>
    obtain ⟨first, hfirst, hps⟩ := ihp
    obtain ⟨used, hused, hstanding⟩ := ih
    refine ⟨first ++ used, by rw [hfirst, hused, List.append_assoc], fun lo hi h => ?_⟩
    obtain ⟨mid, hfirst, hrest⟩ := chained_append.1 h
    exact (hps _ _ hfirst).append (hstanding _ _ hrest)
  | done _ _ ih => exact ih
  | more _ _ _ _ ihp ih =>
    obtain ⟨first, hfirst, hps⟩ := ihp
    obtain ⟨used, hused, hstanding⟩ := ih
    refine ⟨first ++ used, by rw [hfirst, hused, List.append_assoc], fun lo hi h => ?_⟩
    obtain ⟨mid, hfirst, hrest⟩ := chained_append.1 h
    exact (hps _ _ hfirst).append (hstanding _ _ hrest)

/-! ### The tree of a source -/

/-- The tokens of a text stand one behind the other. -/
theorem chained_tokensAt (p : Place) (cs : List Char) :
    Chained p.offset (p.offset + Text.byteLength cs) (tokensAt p cs) := by
  induction cs using text_induction generalizing p with
  | nil => exact Nat.le_refl _
  | space c rest hc ih =>
    rw [tokensAt_space hc, Text.byteLength_cons, ← Nat.add_assoc, ← offset_advance]
    exact (ih (p.advance c)).mono (by rw [offset_advance]; exact Nat.le_add_right _ _)
  | token c rest kind text behind hc htext hsplit ih =>
    have hne := tokenText_ne_nil c rest
    rw [htext] at hne
    rw [tokensAt_token hc htext hsplit, hsplit, Text.byteLength_append, ← Nat.add_assoc,
      ← offset_advanceAll]
    refine ⟨Nat.le_refl _, ?_, ih _⟩
    obtain ⟨d, text, rfl⟩ := List.exists_cons_of_ne_nil hne
    have hpos := d.utf8Size_pos
    show p.offset < (p.advanceAll (d :: text)).offset
    rw [offset_advanceAll, Text.byteLength_cons]
    omega

/-- The parts of a source without syntax errors are derived from its chunks, but for the comments at its
end. -/
theorem exists_derives_partsOf {source : List Char} (hfaults : (Tree.ofSource source).faults = []) :
    ∃ ps, partsOf source = ps ++ (lexemes (tokens source)).2.map (fun c =>
        (.part, .leaf .comment c.extent)) ∧
      Derives [.many .item] (chunks (lexemes (tokens source)).1) ps [] := by
  obtain ⟨-, hfaults⟩ := List.append_eq_nil_iff.1 ((faults_node _ _ _).symm.trans hfaults)
  unfold partsOf at hfaults ⊢
  dsimp only at hfaults ⊢
  rw [faultsOf_append, faultsOf_append, List.append_eq_nil_iff, List.append_eq_nil_iff] at hfaults
  obtain ⟨⟨hread, hleft⟩, -⟩ := hfaults
  obtain ⟨hnil, hunread⟩ := Reader.chunks_of_faults_unread hleft
  have hderives := derives_of_read hread
  rw [hnil] at hderives
  exact ⟨_, by rw [hunread, List.append_nil], hderives⟩

/-- **The tree of a source without syntax errors is well formed.** -/
theorem Tree.wellFormed_ofSource {source : List Char}
    (hfaults : (Tree.ofSource source).faults = []) : (Tree.ofSource source).WellFormed := by
  obtain ⟨ps, hps, hderives⟩ := exists_derives_partsOf hfaults
  obtain ⟨used, hused, hparts⟩ := hderives.standing
  rw [tokensOf_nil, List.append_nil] at hused
  have hchained := chained_tokensAt Place.start source
  rw [← tokens_lexemes (tokensAt Place.start source)] at hchained
  obtain ⟨mid, hchunks, hcomments⟩ := chained_append.1 hchained
  have hall := (hparts _ _ (hused ▸ hchunks)).append
    (standing_leaves (fun _ => (.part, .comment)) hcomments)
  rw [Tree.ofSource, hps]
  exact .node (hall.inOrder_extentOf _) (fun _ hb => absurd hb List.not_mem_nil) (fun h => (nomatch h))
    hall.wellFormed

end BranchExclusion.Java
