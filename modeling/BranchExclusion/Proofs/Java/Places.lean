import BranchExclusion.Proofs.Java.Chunk
import BranchExclusion.Proofs.Java.Sites
import BranchExclusion.Proofs.Java.Token
import BranchExclusion.Proofs.Source.Stretch
import BranchExclusion.Proofs.Text.Rows

/-!
# Places in a source

A tree starts and ends where tokens do, so that a token lies within it or outside.

* `exists_split_of_mem_tokensAt`: a token stands in its source;
* `rows_trim_of_isComment`: a comment starts and ends on lines that are not blank;
* `Place.Between`: a place between two characters that lies in no token;
* `Tree.Stands`: all places of a tree are of some kind;
* `Tree.stands_ofSource`: the places of a tree that was read lie in no token;
* `Tree.forall_sites`: what passes from a tree to its parts holds of the bodies in it.
-/

namespace BranchExclusion

namespace Text

/-- The text in the middle is the slice at its place. -/
theorem slice_append_append (xs ys zs : List Char) :
    slice (xs ++ (ys ++ zs)) (byteLength xs) (byteLength xs + byteLength ys) = ys := by
  rw [slice, dropBytes_append (Nat.le_refl _), Nat.add_sub_cancel_left,
    dropBytes_byteLength, List.nil_append, takeBytes_append (Nat.le_refl _), takeBytes_byteLength]

end Text

namespace Java

open Text (byteLength isBoundary slice rows trim)

/-! ### Tokens -/

variable {source cs : List Char} {p : Place} {t : Token}

/-- What is read of a text starts with a token that stands behind what was read before. -/
theorem exists_split_of_mem_tokensAt (h : t ∈ tokensAt p cs) :
    ∃ before c rest behind, cs = before ++ c :: rest ∧
      tokenText c rest = (t.kind, t.text.toList) ∧ c :: rest = t.text.toList ++ behind ∧
      t.extent.start.offset = p.offset + byteLength before ∧
      t.extent.stop.offset = t.extent.start.offset + byteLength t.text.toList := by
  induction cs using text_induction generalizing p with
  | nil => cases h
  | space c rest hc ih =>
    rw [tokensAt_space hc] at h
    obtain ⟨before, d, rest', behind, rfl, htext, hsplit, hstart, hstop⟩ := ih h
    refine ⟨c :: before, d, rest', behind, rfl, htext, hsplit, ?_, hstop⟩
    rw [hstart, offset_advance, Text.byteLength_cons, Nat.add_assoc]
  | token c rest kind text behind hc htext hsplit ih =>
    rw [tokensAt_token hc htext hsplit] at h
    rcases List.mem_cons.1 h with rfl | h
    · refine ⟨[], c, rest, behind, rfl, ?_, ?_, rfl, ?_⟩
      · rw [String.toList_ofList, htext]
      · rw [String.toList_ofList, hsplit]
      · rw [String.toList_ofList]
        exact offset_advanceAll p text
    · obtain ⟨before, d, rest', behind', rfl, htext', hsplit', hstart, hstop⟩ := ih h
      refine ⟨text ++ before, d, rest', behind', ?_, htext', hsplit', ?_, hstop⟩
      · rw [hsplit, List.append_assoc]
      · rw [hstart, offset_advanceAll, Text.byteLength_append, Nat.add_assoc]

theorem start_lt_stop (h : t ∈ tokensAt p cs) : t.extent.start.offset < t.extent.stop.offset := by
  obtain ⟨-, c, rest, -, -, htext, -, -, hstop⟩ := exists_split_of_mem_tokensAt h
  have hne := tokenText_ne_nil c rest
  rw [htext] at hne
  obtain ⟨d, text, hd⟩ := List.exists_cons_of_ne_nil hne
  have hpos := d.utf8Size_pos
  dsimp only at hd
  rw [hstop, hd, Text.byteLength_cons]
  omega

/-- Tokens stand one behind the other. -/
theorem pairwise_tokensAt (p : Place) (cs : List Char) :
    (tokensAt p cs).Pairwise fun t u => t.extent.stop.offset ≤ u.extent.start.offset := by
  induction cs using text_induction generalizing p with
  | nil => exact .nil
  | space c rest hc ih =>
    rw [tokensAt_space hc]
    exact ih _
  | token c rest kind text behind hc htext hsplit ih =>
    rw [tokensAt_token hc htext hsplit]
    refine .cons (fun u hu => ?_) (ih _)
    obtain ⟨before, -, -, -, -, -, -, hstart, -⟩ := exists_split_of_mem_tokensAt hu
    exact hstart ▸ Nat.le_add_right _ _

/-- A token is the stretch of source between its places. -/
theorem text_of_mem_tokens (h : t ∈ tokens source) :
    t.text.toList = slice source t.extent.start.offset t.extent.stop.offset ∧
      t.extent.range.Fits source := by
  have hlt := start_lt_stop h
  obtain ⟨before, c, rest, behind, rfl, -, hsplit, hstart, hstop⟩ := exists_split_of_mem_tokensAt h
  have hstart' : t.extent.start.offset = byteLength before := hstart.trans (Nat.zero_add _)
  rw [hstart'] at hstop
  have hbehind : isBoundary (before ++ c :: rest) t.extent.stop.offset = true := by
    rw [hsplit, ← List.append_assoc, hstop, ← Text.byteLength_append]
    exact Text.isBoundary_append _ behind
  refine ⟨?_, hlt, Text.le_byteLength_of_isBoundary hbehind, ?_, hbehind⟩
  · rw [hstart', hstop, hsplit, Text.slice_append_append]
  · show isBoundary _ t.extent.start.offset = true
    rw [hstart']
    exact Text.isBoundary_append before _

/-! ### Comments -/

/-- A comment is a single line, or ends with `*/`. -/
theorem comment_cases {c : Char} {rest text : List Char} (h : tokenText c rest = (.comment, text)) :
    '\n' ∉ text ∨ ∃ inner, text = '/' :: '*' :: inner ++ ['*', '/'] := by
  unfold tokenText at h
  split at h
  · next more =>
    obtain ⟨-, rfl⟩ := Prod.mk.inj h
    refine .inl fun hc => ?_
    have hmem : '\n' ∈ takeLine more := by simpa using hc
    simpa using List.mem_takeWhile_imp hmem
  · next more =>
    obtain ⟨-, inner, hinner, rfl⟩ := closedText_eq h (by decide)
    rcases exists_of_takeThrough_comment hinner with ⟨hstar, -⟩ | ⟨inner, rfl⟩
    · cases hstar
    · exact .inr ⟨inner, rfl⟩
  · cases (closedText_eq h (by decide)).1
  · cases (closedText_eq h (by decide)).1
  · cases (closedText_eq h (by decide)).1
  · -- no other token is a comment
    rcases plainText_kind c rest with hkind | hkind | hkind <;> rw [h] at hkind <;> cases hkind

/-- A comment starts and ends on lines that are not blank. -/
theorem rows_trim_of_isComment (h : t ∈ tokens source) (hc : t.isComment = true) :
    rows (trim t.text.toList) = rows t.text.toList := by
  obtain ⟨before, c, rest, behind, rfl, htext, hsplit, -, -⟩ := exists_split_of_mem_tokensAt h
  have hkind : t.kind = .comment := by simpa [Token.isComment] using hc
  rw [hkind] at htext
  rcases comment_cases htext with hline | ⟨inner, hinner⟩
  · have htrim : '\n' ∉ trim t.text.toList := fun hc => hline ((Text.trim_isInfix _).subset hc)
    rw [Text.rows_of_not_mem hline, Text.rows_of_not_mem htrim, (Text.solid_trim _).trim_eq]
  · have hsolid : Text.Solid t.text.toList := by
      have hends : t.text.toList = '/' :: ('*' :: inner ++ ['*'] ++ ['/']) := by simp [hinner]
      rw [hends]
      exact Text.solid_cons_concat rfl rfl _
    rw [hsolid.trim_eq]

/-! ### Places -/

/-- The place lies between two characters of the source, and in none of its tokens. -/
def Place.Between (source : List Char) (p : Place) : Prop :=
  isBoundary source p.offset = true ∧ ∀ t ∈ tokens source,
    t.extent.stop.offset ≤ p.offset ∨ p.offset ≤ t.extent.start.offset

theorem Place.between_start (source : List Char) : Place.start.Between source := by
  refine ⟨?_, fun t _ => .inr (Nat.zero_le _)⟩
  show isBoundary source 0 = true
  cases source <;> rfl

/-- A token starts and ends between characters. -/
theorem between_of_mem_tokens (h : t ∈ tokens source) :
    t.extent.start.Between source ∧ t.extent.stop.Between source := by
  have hfits : t.extent.range.Fits source := (text_of_mem_tokens h).2
  have hlt : t.extent.start.offset < t.extent.stop.offset := hfits.nonempty
  -- of two tokens one stands behind the other
  have hother : ∀ u ∈ tokens source, u = t ∨
      u.extent.stop.offset ≤ t.extent.start.offset ∨
      t.extent.stop.offset ≤ u.extent.start.offset := by
    intro u hu
    by_cases heq : u = t
    · exact .inl heq
    have hboth : (tokens source).Pairwise fun t u : Token =>
        t.extent.stop.offset ≤ u.extent.start.offset ∨
          u.extent.stop.offset ≤ t.extent.start.offset :=
      (pairwise_tokensAt Place.start source).imp Or.inl
    have : Std.Symm fun t u : Token => t.extent.stop.offset ≤ u.extent.start.offset ∨
        u.extent.stop.offset ≤ t.extent.start.offset := ⟨fun _ _ => Or.symm⟩
    exact .inr (hboth.forall hu h heq)
  refine ⟨⟨hfits.start, fun u hu => ?_⟩, ⟨hfits.stop, fun u hu => ?_⟩⟩
  · have hlt' := start_lt_stop (p := Place.start) hu
    rcases hother u hu with rfl | hbefore | hbehind
    · exact .inr (Nat.le_refl _)
    · exact .inl hbefore
    · exact .inr (by omega)
  · have hlt' := start_lt_stop (p := Place.start) hu
    rcases hother u hu with rfl | hbefore | hbehind
    · exact .inl (Nat.le_refl _)
    · exact .inl (by omega)
    · exact .inr hbehind

/-- A token within a stretch whose ends lie in no token, or outside of it. -/
theorem Place.Between.contains_or_disjoint {start stop : Place} (hstart : start.Between source)
    (hstop : stop.Between source) (h : t ∈ tokens source) :
    (Extent.range ⟨start, stop⟩).contains t.extent.range = true ∨
      (Extent.range ⟨start, stop⟩).Disjoint t.extent.range := by
  rcases hstart.2 t h with hbefore | hin
  · exact .inr (.inr hbefore)
  · rcases hstop.2 t h with hin' | hbehind
    · exact .inl (ByteRange.contains_iff.2 ⟨hin, hin'⟩)
    · exact .inr (.inl hbehind)

/-! ### The places of a tree -/

/-- The starts and ends in the tree are all of a kind. -/
inductive Tree.Stands (P : Place → Prop) : Tree → Prop
  | leaf {kind : LeafKind} {e : Extent} : P e.start → P e.stop → Stands P (.leaf kind e)
  | node {kind : NodeKind} {e : Extent} {parts : List (Role × Tree)} : P e.start → P e.stop →
      (∀ p ∈ parts, Stands P p.2) → Stands P (.node kind e parts)

namespace Tree.Stands

variable {P : Place → Prop} {tree : Tree}

theorem start (h : tree.Stands P) : P tree.extent.start := by
  cases h with
  | leaf hstart => exact hstart
  | node hstart => exact hstart

theorem stop (h : tree.Stands P) : P tree.extent.stop := by
  cases h with
  | leaf _ hstop => exact hstop
  | node _ hstop => exact hstop

theorem parts (h : tree.Stands P) : ∀ p ∈ tree.parts, p.2.Stands P := by
  cases h with
  | leaf => exact fun _ hp => absurd hp List.not_mem_nil
  | node _ _ hparts => exact hparts

end Tree.Stands

/-! ### What is read -/

section Reading

variable {P : Place → Prop} {parts : Parts} {w : Lexeme} {r : Reader}

/-- The tokens start and end at places of that kind. -/
def TokensStand (P : Place → Prop) (ts : List Token) : Prop :=
  ∀ t ∈ ts, P t.extent.start ∧ P t.extent.stop

theorem tokensStand_append {ts us : List Token} :
    TokensStand P (ts ++ us) ↔ TokensStand P ts ∧ TokensStand P us := List.forall_mem_append

/-- The parts start and end at places of that kind. -/
def PartsStand (P : Place → Prop) (parts : Parts) : Prop := ∀ p ∈ parts, p.2.Stands P

theorem partsStand_append {ps qs : Parts} :
    PartsStand P (ps ++ qs) ↔ PartsStand P ps ∧ PartsStand P qs := List.forall_mem_append

theorem partsStand_singleton {p : Role × Tree} : PartsStand P [p] ↔ p.2.Stands P :=
  List.forall_mem_singleton

theorem partsStand_comments {ts : List Token} (h : TokensStand P ts) :
    PartsStand P (ts.map fun c => (.part, .leaf .comment c.extent)) := by
  intro p hp
  obtain ⟨t, ht, rfl⟩ := List.mem_map.1 hp
  exact .leaf (h t ht).1 (h t ht).2

theorem partsStand_parts (h : TokensStand P w.tokens) (role : Role) :
    PartsStand P (w.parts role) := by
  obtain ⟨hcomments, htoken⟩ := tokensStand_append.1 h
  obtain ⟨hstart, hstop⟩ := htoken w.token (List.mem_singleton_self _)
  refine partsStand_append.2 ⟨partsStand_comments hcomments, partsStand_singleton.2 ?_⟩
  unfold Token.tree
  dsimp only
  split
  · exact .node hstart hstop (List.forall_mem_singleton.2 (.leaf hstart hstop))
  · exact .leaf hstart hstop

theorem partsStand_alone (h : TokensStand P w.tokens) (role : Role) :
    PartsStand P (w.alone role) := by
  obtain ⟨hcomments, htoken⟩ := tokensStand_append.1 h
  obtain ⟨hstart, hstop⟩ := htoken w.token (List.mem_singleton_self _)
  have hparts := partsStand_parts h role
  unfold Lexeme.alone
  split
  · refine partsStand_append.2 ⟨partsStand_comments hcomments, partsStand_singleton.2 ?_⟩
    have htree : (w.token.tree role).Stands P :=
      partsStand_singleton.1 (partsStand_append.1 hparts).2
    exact .node hstart hstop (List.forall_mem_singleton.2 htree)
  · exact hparts

theorem stands_lackingAt (what : String) {p : Place} (hp : P p) :
    (lackingAt what p).2.Stands P := .leaf hp hp

theorem partsStand_lackingAt (what : String) {p : Place} (hp : P p) :
    PartsStand P [lackingAt what p] := partsStand_singleton.2 (stands_lackingAt what hp)

/-- A node reaches over its parts. -/
theorem stands_extentOf (kind : NodeKind) {p : Place} (hp : P p) (h : PartsStand P parts) :
    (Tree.node kind (extentOf p parts) parts).Stands P := by
  have hhead : P (extentOf p parts).start := by
    unfold extentOf
    cases hfirst : parts.head? with
    | none => exact hp
    | some first => exact (h first (List.mem_of_head? hfirst)).start
  have hlast : P (extentOf p parts).stop := by
    unfold extentOf
    cases hlast : parts.getLast? with
    | none => exact hp
    | some last => exact (h last (List.mem_of_getLast? hlast)).stop
  exact .node hhead hlast h

theorem stands_nodeOf (role : Role) (kind : NodeKind) {p : Place} (hp : P p)
    (h : PartsStand P parts) : (nodeOf role kind p parts).2.Stands P := by
  unfold nodeOf
  split
  · exact stands_lackingAt _ hp
  · exact stands_extentOf kind hp h

mutual

theorem Chunk.stands_raw : (c : Chunk) → TokensStand P c.tokens →
    PartsStand P c.raw.1 ∧ P c.raw.2
  | .word w, h => by
    rw [Chunk.tokens_word] at h
    rw [Chunk.raw]
    exact ⟨partsStand_alone h .part, (h w.token (List.mem_concat_self ..)).2⟩
  | .group o inner closing, h => by
    rw [Chunk.tokens_group, tokensStand_append, tokensStand_append] at h
    obtain ⟨⟨hopening, hinner⟩, hclosing⟩ := h
    obtain ⟨hparts, hstop⟩ :=
      stands_rawAll inner hinner (hopening o.token (List.mem_concat_self ..)).2
    have hbefore := partsStand_append.2 ⟨partsStand_parts hopening .part, hparts⟩
    cases closing with
    | none =>
      rw [Chunk.raw]
      exact ⟨partsStand_append.2 ⟨hbefore, partsStand_lackingAt _ hstop⟩, hstop⟩
    | some c =>
      rw [Chunk.raw]
      exact ⟨partsStand_append.2 ⟨hbefore, partsStand_parts hclosing .part⟩,
        (hclosing c.token (List.mem_concat_self ..)).2⟩

theorem stands_rawAll {stop : Place} : (cs : List Chunk) → TokensStand P (tokensOf cs) → P stop →
    PartsStand P (Chunk.rawAll stop cs).1 ∧ P (Chunk.rawAll stop cs).2
  | [], _, hstop => by
    rw [Chunk.rawAll]
    exact ⟨List.forall_mem_nil _, hstop⟩
  | c :: rest, h, _ => by
    rw [tokensOf_cons, tokensStand_append] at h
    obtain ⟨hhere, hstop⟩ := c.stands_raw h.1
    obtain ⟨hmore, hstop⟩ := stands_rawAll rest h.2 hstop
    rw [Chunk.rawAll]
    exact ⟨partsStand_append.2 ⟨hhere, hmore⟩, hstop⟩

end

/-- The tokens to come, and the place reached, stand at places of that kind. -/
structure Reader.Stands (P : Place → Prop) (r : Reader) : Prop where
  tokens : TokensStand P (tokensOf r.chunks)
  stop : P r.stop

namespace Reader.Stands

theorem comments (h : r.Stands P) : PartsStand P r.comments.1 ∧ r.comments.2.Stands P := by
  obtain ⟨cs, stop⟩ := r
  obtain ⟨htokens, hstop⟩ := h
  cases cs with
  | nil => exact ⟨List.forall_mem_nil _, htokens, hstop⟩
  | cons c cs =>
    rw [tokensOf_cons, c.tokens_bare, List.append_assoc, tokensStand_append] at htokens
    refine ⟨partsStand_comments htokens.1, ?_, hstop⟩
    show TokensStand P (tokensOf (c.bare :: cs))
    rw [tokensOf_cons]
    exact htokens.2

theorem token (h : r.Stands P) {parts : Lexeme → Parts}
    (hparts : ∀ w : Lexeme, TokensStand P w.tokens → PartsStand P (parts w)) :
    PartsStand P (r.token parts).1 ∧ (r.token parts).2.Stands P := by
  unfold Reader.token
  split
  · next w rest hchunks =>
    have htokens := h.tokens
    rw [hchunks, tokensOf_cons, Chunk.tokens_word, tokensStand_append] at htokens
    exact ⟨hparts w htokens.1, htokens.2, (htokens.1 w.token (List.mem_concat_self ..)).2⟩
  · exact ⟨partsStand_lackingAt _ h.stop, h⟩

theorem unfit (h : r.Stands P) (role : Role) :
    PartsStand P (r.unfit role).1 ∧ (r.unfit role).2.Stands P := by
  obtain ⟨hlead, hbare⟩ := h.comments
  obtain ⟨hparts, hleft⟩ := hbare.token fun w hw => partsStand_parts hw .part
  exact ⟨partsStand_append.2 ⟨hlead, partsStand_singleton.2 (stands_nodeOf role _ hleft.stop hparts)⟩,
    hleft⟩

theorem raw (h : r.Stands P) (n : ℕ) : PartsStand P (r.raw n).1 ∧ (r.raw n).2.Stands P := by
  have htokens := h.tokens
  rw [← List.take_append_drop n r.chunks, tokensOf_append, tokensStand_append] at htokens
  obtain ⟨hparts, hstop⟩ := stands_rawAll _ htokens.1 h.stop
  refine ⟨?_, htokens.2, hstop⟩
  unfold Reader.raw
  dsimp only
  split
  · exact partsStand_append.2 ⟨hparts, partsStand_lackingAt _ hstop⟩
  · exact hparts

theorem unread (h : r.Stands P) : PartsStand P r.unread.1 ∧ P r.unread.2 := by
  obtain ⟨hparts, hstop⟩ := stands_rawAll _ h.tokens h.stop
  refine ⟨?_, hstop⟩
  unfold Reader.unread
  dsimp only
  split
  · exact List.forall_mem_nil _
  · exact partsStand_singleton.2 (stands_nodeOf _ _ hstop hparts)

theorem close (h : r.Stands P) (opening : Word) {closing : Option Lexeme}
    (hclosing : TokensStand P ((closing.map Lexeme.tokens).getD [])) :
    PartsStand P (r.close opening closing).1 ∧ P (r.close opening closing).2 := by
  obtain ⟨hparts, hstop⟩ := h.unread
  cases closing with
  | none => exact ⟨partsStand_append.2 ⟨hparts, partsStand_lackingAt _ hstop⟩, hstop⟩
  | some c => exact ⟨partsStand_append.2 ⟨hparts, partsStand_parts hclosing .part⟩,
      (hclosing c.token (List.mem_concat_self ..)).2⟩

end Reader.Stands

/-- What is read stands where the tokens do, and so does what is left. -/
theorem Reader.Stands.read (h : r.Stands P) (fuel : ℕ) (ss : List Symbol) :
    PartsStand P (read fuel ss r).1 ∧ (read fuel ss r).2.Stands P := by
  induction fuel generalizing ss r with
  | zero => exact ⟨partsStand_lackingAt _ h.stop, h⟩
  | succ fuel ih =>
    cases ss with
    | nil => exact ⟨List.forall_mem_nil _, h⟩
    | cons s ss =>
      -- the symbols behind
      have hs (here : Parts) (next : Reader) (hhere : PartsStand P here) (hnext : next.Stands P) :
          PartsStand P (here ++ (Java.read fuel ss next).1) ∧
            (Java.read fuel ss next).2.Stands P :=
        ⟨partsStand_append.2 ⟨hhere, (ih hnext ss).1⟩, (ih hnext ss).2⟩
      cases s with
      | token role =>
        rw [Java.read]
        have htoken := h.token fun w hw => partsStand_alone hw role
        exact hs _ _ htoken.1 htoken.2
      | raw n =>
        rw [Java.read]
        exact hs _ _ (h.raw n).1 (h.raw n).2
      | unfit role =>
        rw [Java.read]
        exact hs _ _ (h.unfit role).1 (h.unfit role).2
      | missing what =>
        rw [Java.read]
        exact hs _ _ (partsStand_lackingAt what h.stop) h
      | phrase p =>
        rw [Java.read]
        exact hs _ _ (ih h _).1 (ih h _).2
      | node role kind =>
        rw [Java.read]
        obtain ⟨hlead, hbare⟩ := h.comments
        obtain ⟨hparts, hnext⟩ := ih hbare [.phrase (.inside kind)]
        exact hs _ _ (partsStand_append.2
          ⟨hlead, partsStand_singleton.2 (stands_nodeOf role kind hnext.stop hparts)⟩) hnext
      | many p =>
        rw [Java.read]
        dsimp only
        obtain ⟨hfirst, hnext⟩ := ih h (p.expand r.view)
        split_ifs with hempty hlength
        · exact hs _ _ (List.forall_mem_nil _) h
        · obtain ⟨hmore, hlast⟩ := ih hnext [.many p]
          exact hs _ _ (partsStand_append.2 ⟨hfirst, hmore⟩) hlast
        · exact hs _ _ (partsStand_append.2 ⟨hfirst, partsStand_lackingAt _ hnext.stop⟩) hnext
      | group opening p =>
        rw [Java.read]
        obtain ⟨cs, stop⟩ := r
        cases cs with
        | nil => exact hs _ _ (partsStand_lackingAt _ h.stop) h
        | cons c cs =>
          cases c with
          | word w => exact hs _ _ (partsStand_lackingAt _ h.stop) h
          | group o inner closing =>
            dsimp only
            split_ifs with hopening
            · have htokens := h.tokens
              rw [tokensOf_cons, Chunk.tokens_group, tokensStand_append, tokensStand_append,
                tokensStand_append] at htokens
              obtain ⟨⟨⟨ho, hinner⟩, hclosing⟩, hrest⟩ := htokens
              have hinside : Reader.Stands P ⟨inner, o.token.extent.stop⟩ :=
                ⟨hinner, (ho o.token (List.mem_concat_self ..)).2⟩
              obtain ⟨hparts, hleft⟩ := ih hinside [.phrase p]
              obtain ⟨hlast, hstop⟩ := hleft.close o.token.word hclosing
              exact hs _ _ (partsStand_append.2
                ⟨partsStand_append.2 ⟨partsStand_parts ho .part, hparts⟩, hlast⟩) ⟨hrest, hstop⟩
            · exact hs _ _ (partsStand_lackingAt _ h.stop) h

end Reading

/-- The places of a tree that was read lie in no token. -/
theorem Tree.stands_ofSource (source : List Char) :
    (Tree.ofSource source).Stands (Place.Between source) := by
  have htokens : TokensStand (Place.Between source)
      (tokensOf (chunks (lexemes (tokens source)).1) ++ (lexemes (tokens source)).2) := by
    rw [tokens_lexemes]
    exact fun t ht => between_of_mem_tokens ht
  obtain ⟨hchunks, hcomments⟩ := tokensStand_append.1 htokens
  have hstart := Place.between_start source
  have hreader : Reader.Stands (Place.Between source)
      ⟨chunks (lexemes (tokens source)).1, Place.start⟩ := ⟨hchunks, hstart⟩
  obtain ⟨hparts, hleft⟩ := hreader.read (enoughDepth (tokens source).length) [.many .item]
  refine stands_extentOf .program hstart ?_
  rw [partsOf]
  dsimp only
  rw [partsStand_append, partsStand_append]
  exact ⟨⟨hparts, hleft.unread.1⟩, partsStand_comments hcomments⟩

/-! ### The bodies of a tree -/

namespace Tree

variable {outer : NodeKind} {meeting : Meeting} {scope inner : List String} {roles : List Role}
  {parts : List (Role × Tree)} {s : BodySite}

/-- The body is found in the tree, on whatever way. -/
def HasSite (source : List Char) (t : Tree) (s : BodySite) : Prop :=
  ∃ meeting scope, s ∈ t.sitesIn source meeting scope

theorem exists_of_mem_sitesOfParts (h : s ∈ sitesOfParts source outer scope inner parts) :
    ∃ p ∈ parts, p.2.HasSite source s := by
  induction parts with
  | nil =>
    rw [sitesOfParts] at h
    cases h
  | cons p rest ih =>
    rw [sitesOfParts] at h
    rcases List.mem_append.1 h with h | h
    · exact ⟨p, List.mem_cons_self .., _, _, h⟩
    · obtain ⟨q, hq, h⟩ := ih h
      exact ⟨q, List.mem_cons_of_mem _ hq, h⟩

theorem exists_of_mem_sitesOfStatements (h : s ∈ sitesOfStatements source scope parts) :
    ∃ p ∈ parts, p.2.HasSite source s := by
  induction parts with
  | nil =>
    rw [sitesOfStatements] at h
    cases h
  | cons p rest ih =>
    rw [sitesOfStatements] at h
    rcases List.mem_append.1 h with h | h
    · exact ⟨p, List.mem_cons_self .., _, _, h⟩
    · obtain ⟨q, hq, h⟩ := ih h
      exact ⟨q, List.mem_cons_of_mem _ hq, h⟩

theorem exists_of_mem_sitesOfLast (h : s ∈ sitesOfLast source scope parts) :
    ∃ p ∈ parts, p.2.HasSite source s := by
  induction parts with
  | nil =>
    rw [sitesOfLast] at h
    cases h
  | cons p rest ih =>
    rw [sitesOfLast] at h
    split at h
    · obtain ⟨q, hq, h⟩ := ih h
      exact ⟨q, List.mem_cons_of_mem _ hq, h⟩
    · split at h
      · exact ⟨p, List.mem_cons_self .., _, _, h⟩
      · cases h

/-- A body in what a statement owns is found in a part, or in a part of a handler. -/
theorem exists_of_mem_sitesOwned (h : s ∈ sitesOwned source outer meeting scope roles parts) :
    ∃ p ∈ parts, p.2.HasSite source s ∨
      ∃ role kind e ps, p = (role, node kind e ps) ∧ isClause outer kind = true ∧
        s ∈ sitesOwned source kind .statement scope [.body] ps := by
  induction parts generalizing roles with
  | nil =>
    rw [sitesOwned] at h
    cases h
  | cons p rest ih =>
    have later : ∀ {roles}, s ∈ sitesOwned source outer meeting scope roles rest →
        ∃ q ∈ p :: rest, q.2.HasSite source s ∨
          ∃ role kind e ps, q = (role, node kind e ps) ∧ isClause outer kind = true ∧
            s ∈ sitesOwned source kind .statement scope [.body] ps := by
      intro roles h
      obtain ⟨q, hq, h⟩ := ih h
      exact ⟨q, List.mem_cons_of_mem _ hq, h⟩
    obtain ⟨role, t⟩ := p
    cases t with
    | leaf kind e =>
      rw [sitesOwned] at h
      exact later h
    | node kind e ps =>
      rw [sitesOwned] at h
      split at h
      · next hkind =>
        rcases List.mem_append.1 h with h | h
        · exact ⟨_, List.mem_cons_self .., .inr ⟨role, kind, e, ps, rfl, hkind, h⟩⟩
        · exact later h
      · split at h
        · rcases List.mem_append.1 h with h | h
          · exact ⟨_, List.mem_cons_self .., .inl ⟨_, _, h⟩⟩
          · exact later h
        · exact later h

section Hereditary

variable {Q R : Tree → Prop} (hparts : ∀ t, Q t → ∀ p ∈ t.parts, Q p.2)
  (hbody : ∀ {outer kind e ps name b}, Q (node kind e ps) →
    bodyName? source outer kind e ps = some name → bodyPart? kind (node kind e ps) = some b → R b)
include hparts

theorem forall_sitesOwned (h : ∀ p ∈ parts, Q p.2)
    (ih : ∀ p ∈ parts, Q p.2 → ∀ s, p.2.HasSite source s → R s.body)
    (ih' : ∀ p ∈ parts, ∀ q ∈ p.2.parts, Q q.2 → ∀ s, q.2.HasSite source s → R s.body)
    (hs : s ∈ sitesOwned source outer meeting scope roles parts) : R s.body := by
  obtain ⟨p, hp, hin | ⟨role, kind, e, ps, rfl, hkind, hs⟩⟩ := exists_of_mem_sitesOwned hs
  · exact ih p hp (h p hp) s hin
  · obtain ⟨q, hq, hin | ⟨_, kind', _, _, _, hkind', _⟩⟩ := exists_of_mem_sitesOwned hs
    · exact ih' _ hp q hq (hparts _ (h _ hp) q hq) s hin
    · rw [isClause_eq_false (ne_try_of_isClause hkind)] at hkind'
      cases hkind'

include hbody in
/-- What passes from a tree to its parts passes to the bodies in it. -/
theorem forall_hasSite (t : Tree) : Q t → ∀ s, t.HasSite source s → R s.body := by
  induction t using Tree.induction with
  | hleaf kind e =>
    rintro - s ⟨meeting, scope, hs⟩
    rw [sitesIn] at hs
    cases hs
  | hnode kind e parts ih ih' =>
    rintro ht s ⟨meeting, scope, hs⟩
    have hq : ∀ p ∈ parts, Q p.2 := hparts _ ht
    have deeper : (∃ p ∈ parts, p.2.HasSite source s) → R s.body := by
      rintro ⟨p, hp, hin⟩
      exact ih p hp (hq p hp) s hin
    rw [sitesIn] at hs
    split at hs
    · exact deeper (exists_of_mem_sitesOfStatements hs)
    split at hs
    · exact forall_sitesOwned hparts hq ih ih' hs
    split at hs
    · exact deeper (exists_of_mem_sitesOfLast hs)
    split at hs
    · next name body hname hpart =>
      rcases List.mem_cons.1 hs with rfl | hs
      · exact hbody ht hname hpart
      · split at hs
        · exact deeper (exists_of_mem_sitesOfStatements hs)
        · exact forall_sitesOwned hparts hq ih ih' hs
    · split at hs
      · exact deeper (exists_of_mem_sitesOfParts hs)
      · cases hs
    · exact deeper (exists_of_mem_sitesOfParts hs)

omit hparts in
/-- A body is the node that has it, or a part of this. -/
theorem bodyPart?_cases {kind : NodeKind} {t b : Tree} (h : bodyPart? kind t = some b) :
    kind = .block ∧ b = t ∨ kind ≠ .block ∧ (Role.body, b) ∈ t.parts := by
  unfold bodyPart? at h
  split at h
  · next hkind => exact .inl ⟨hkind, (Option.some.inj h).symm⟩
  · next hkind => exact .inr ⟨hkind, mem_of_part? h⟩

/-- What passes from a tree to its parts holds of the bodies in it. -/
theorem forall_sites {t : Tree} (ht : Q t) : ∀ s ∈ t.sites source, Q s.body := fun s hs =>
  forall_hasSite hparts (fun hq _ hbody => by
    rcases bodyPart?_cases hbody with ⟨-, rfl⟩ | ⟨-, hb⟩
    · exact hq
    · exact hparts _ hq _ hb) t ht s ⟨_, _, hs⟩

end Hereditary

end Tree

end Java

end BranchExclusion
