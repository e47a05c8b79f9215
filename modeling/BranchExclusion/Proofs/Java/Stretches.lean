import BranchExclusion.Proofs.Java.Methods
import BranchExclusion.Proofs.Java.Places
import BranchExclusion.Proofs.Layout.Reflow

/-!
# The source text that a body shows

A statement is kept as text, or it owns blocks and shows its header, its condition and what follows its
body. What stands between these is not shown.

* `Tree.stretches`: the stretches of source that a statement shows;
* `Statement.Keeps`: the statement shows a stretch;
* `Tree.covers`: each of the stretches is shown by some statement;
* `Tree.exists_keeps`: so it is in the body that was read.
-/

namespace BranchExclusion

open Text (slice trim isBoundary)

/-! ### Statements that show a stretch -/

/-- The statement keeps the stretch as a whole, or shows whatever fits into it, apart from white space
at the ends. -/
def Statement.Keeps (source : List Char) (k : ByteRange) (s : Statement) : Prop :=
  (∃ v ∈ s.verbatims, v.range = k ∧ isBoundary source k.start = true) ∨
    ∃ t ∈ s.texts, ∀ r : ByteRange, k.contains r = true → r.Fits source →
      trim (slice source r.start r.stop) <:+: t.toList

namespace Java

namespace Tree

/-- The text is in parentheses. -/
def inParentheses : List Char → Bool
  | '(' :: rest => rest.getLast? = some ')'
  | _ => false

/-- What stands between the parentheses of a condition. -/
def conditionStretch (source : List Char) (parts : List (Role × Tree)) : List ByteRange :=
  match part? .condition parts with
  | some c =>
    if inParentheses (slice source c.start c.stop) then [⟨c.start + 1, c.stop - 1⟩] else []
  | none => []

/-- The header of a `catch`, up to its body. -/
def clauseStretch : Tree → List ByteRange
  | node .catchClause e parts => (part? .body parts).toList.map fun b => ⟨e.start.offset, b.start⟩
  | _ => []

/-- What a statement that owns blocks shows itself: its condition, or its header up to its body and
what follows the body, which for a `try` are the headers of its handlers. -/
def frames (source : List Char) (kind : NodeKind) (e : Extent) (parts : List (Role × Tree)) :
    List ByteRange :=
  match kind, part? .body parts with
  | .ifStatement, _ => conditionStretch source parts
  | .tryStatement, some body =>
    ⟨e.start.offset, body.start⟩ :: parts.flatMap fun p => p.2.clauseStretch
  | _, some body => [⟨e.start.offset, body.start⟩, ⟨body.stop, e.stop.offset⟩]
  | _, none => []

mutual

/-- The stretches of source that a statement shows, with those of the statements that it owns. -/
def stretches (source : List Char) : Tree → List ByteRange
  | leaf _ e => [e.range]
  | node kind e parts =>
    if kind = .block then stretchesOfStatements source parts
    else if (exitKind? kind).isSome then [e.range]
    else
      match ownedRoles? source kind e parts with
      | some roles => frames source kind e parts ++ stretchesOfOwned source kind roles parts
      | none =>
        if kind = .labeledStatement ∧ (label? parts).isSome then stretchesOfLast source parts
        else [e.range]

/-- The stretches that the statements of a block show. -/
def stretchesOfStatements (source : List Char) : List (Role × Tree) → List ByteRange
  | [] => []
  | (_, t) :: rest =>
    if t.isBrace then stretchesOfStatements source rest
    else t.stretches source ++ stretchesOfStatements source rest

/-- The same for the last part that is no keyword or symbol. -/
def stretchesOfLast (source : List Char) : List (Role × Tree) → List ByteRange
  | [] => []
  | (_, t) :: rest =>
    if rest.any fun p => p.2.isNamed then stretchesOfLast source rest
    else if t.isNamed then t.stretches source
    else []

/-- The same for the first parts with these roles and the handlers of a `try`. -/
def stretchesOfOwned (source : List Char) (outer : NodeKind) (roles : List Role) :
    List (Role × Tree) → List ByteRange
  | [] => []
  | (role, leaf kind e) :: rest =>
    if role ∈ roles ∧ (role = .body ∨ kind ≠ .fixed ";") then
      (leaf kind e).stretches source ++ stretchesOfOwned source outer (roles.erase role) rest
    else stretchesOfOwned source outer (roles.erase role) rest
  | (role, node kind e parts) :: rest =>
    if isClause outer kind then
      stretchesOfOwned source kind [.body] parts ++ stretchesOfOwned source outer roles rest
    else if role ∈ roles then
      (node kind e parts).stretches source ++
        stretchesOfOwned source outer (roles.erase role) rest
    else stretchesOfOwned source outer roles rest

end

end Tree

end Java

/-! ### Shown text -/

namespace Statement

variable {source : List Char} {k : ByteRange} {s : Statement}

theorem not_keeps_block (id : BlockId) : ¬ (Statement.block id).Keeps source k := by
  rintro (⟨v, hv, -⟩ | ⟨t, ht, -⟩)
  · cases hv
  · cases ht

/-- A text between two places. -/
theorem Keeps.of_slice (hstart : isBoundary source k.start = true) {t : String} (ht : t ∈ s.texts)
    (htext : trim (slice source k.start k.stop) <:+: t.toList) : s.Keeps source k := by
  refine .inr ⟨t, ht, fun r hin hr => (Text.trim_infix_trim ?_).trans htext⟩
  obtain ⟨hlo, hhi⟩ := ByteRange.contains_iff.1 hin
  exact Text.slice_isInfix hlo (Nat.le_of_lt hr.nonempty) hhi hstart hr.start hr.stop

theorem Keeps.of_trimmedSlice (start stop : Java.Place)
    (hstart : isBoundary source start.offset = true)
    (ht : Java.Tree.trimmedSlice source start stop ∈ s.texts) :
    s.Keeps source ⟨start.offset, stop.offset⟩ := by
  refine .of_slice hstart ht ?_
  rw [Java.Tree.trimmedSlice, String.toList_ofList]

end Statement

namespace Java.Tree

variable {source : List Char}

theorem stripParentheses_eq (x : List Char) : stripParentheses ('(' :: (x ++ [')'])) = trim x := by
  have hsolid : trim ('(' :: (x ++ [')'])) = '(' :: (x ++ [')']) :=
    (Text.solid_cons_concat rfl rfl _).trim_eq
  rw [stripParentheses, hsolid]
  simp only [List.getLast?_concat, if_true, List.dropLast_concat]

/-- A part of a text in parentheses that leaves out its ends stands between them. -/
theorem infix_stripParentheses {before piece behind : List Char}
    (h : inParentheses (before ++ piece ++ behind) = true) (hbefore : before ≠ [])
    (hbehind : behind ≠ []) :
    trim piece <:+: stripParentheses (before ++ piece ++ behind) := by
  obtain ⟨c, before, rfl⟩ := List.exists_cons_of_ne_nil hbefore
  obtain ⟨behind, d, rfl⟩ := List.eq_nil_or_concat' behind |>.resolve_left hbehind
  have htext : c :: before ++ piece ++ (behind ++ [d]) =
      c :: (before ++ piece ++ behind ++ [d]) := by simp
  rw [htext] at h ⊢
  unfold inParentheses at h
  split at h
  · next rest hrest =>
    obtain ⟨rfl, rfl⟩ := List.cons.inj hrest
    rw [List.getLast?_concat, decide_eq_true_eq, Option.some.injEq] at h
    subst h
    rw [stripParentheses_eq]
    exact Text.trim_infix_trim ⟨before, behind, rfl⟩
  · cases h

/-- A conditional shows what stands between the parentheses of its condition. -/
theorem keeps_condition {parts : List (Role × Tree)} (hparts : ∀ p ∈ parts,
      p.2.Stands (Place.Between source)) {k : ByteRange} (hk : k ∈ conditionStretch source parts)
    (c : Conditional) (hc : c.condition = conditionText source parts) :
    (Statement.conditional c).Keeps source k := by
  unfold conditionStretch at hk
  split at hk
  · next cond hcond =>
    split at hk
    · next hin =>
      obtain rfl := List.mem_singleton.1 hk
      have hmem := mem_of_part? hcond
      have hstart : isBoundary source cond.start = true := (hparts _ hmem).start.1
      refine .inr ⟨String.ofList (stripParentheses (slice source cond.start cond.stop)), ?_, ?_⟩
      · simp [Statement.texts, hc, conditionText, Expr.sources, partText, hcond, textIn, start,
          stop]
      · intro r hr hfits
        obtain ⟨hlo, hhi⟩ := ByteRange.contains_iff.1 hr
        have hlt := hfits.nonempty
        dsimp only at hlo hhi
        have hsplit : slice source cond.start cond.stop = slice source cond.start r.start ++
            slice source r.start r.stop ++ slice source r.stop cond.stop := by
          rw [Text.slice_append (b := r.start) (by omega) (by omega) hstart hfits.start,
            Text.slice_append (b := r.stop) (by omega) (by omega) hfits.start hfits.stop,
            List.append_assoc]
        rw [String.toList_ofList, hsplit]
        rw [hsplit] at hin
        refine infix_stripParentheses hin ?_ ?_
        · exact Text.slice_ne_nil (by omega) hstart hfits.start
        · exact Text.slice_ne_nil (by omega) hfits.stop (hparts _ hmem).stop.1
    · cases hk
  · cases hk

end Java.Tree

/-! ### Bodies that show a stretch -/

/-- `after` is `body` with blocks added, and each of the stretches is shown by a statement in them or
by one that waits for its block. -/
def Body.Covers (source : List Char) (body : Body) (waiting : List Statement)
    (ks : List ByteRange) (after : Body) : Prop :=
  ∃ new, after.blocks.toList = body.blocks.toList ++ new ∧
    ∀ k ∈ ks, ∃ s ∈ waiting ++ new.flatMap Block.statements, s.Keeps source k

namespace Body.Covers

variable {source : List Char} {body after last : Body} {waiting waiting' : List Statement}
  {ks ks' : List ByteRange} {s : Statement}

theorem refl (body : Body) (h : ∀ k ∈ ks, ∃ s ∈ waiting, s.Keeps source k) :
    body.Covers source waiting ks body := by
  refine ⟨[], by simp, fun k hk => ?_⟩
  simpa using h k hk

theorem single (body : Body) {k : ByteRange} (h : s.Keeps source k) :
    body.Covers source [s] [k] body :=
  refl body fun _ hk => ⟨s, List.mem_singleton.2 rfl, List.mem_singleton.1 hk ▸ h⟩

theorem trans (h : body.Covers source waiting ks after)
    (h' : after.Covers source waiting' ks' last) :
    body.Covers source (waiting ++ waiting') (ks ++ ks') last := by
  obtain ⟨new, hnew, hkeeps⟩ := h
  obtain ⟨new', hnew', hkeeps'⟩ := h'
  refine ⟨new ++ new', by rw [hnew', hnew, List.append_assoc], fun k hk => ?_⟩
  simp only [List.flatMap_append, List.mem_append] at hkeeps hkeeps' hk ⊢
  rcases hk with hk | hk
  · obtain ⟨s, hs, h⟩ := hkeeps k hk
    exact ⟨s, hs.elim (fun hs => .inl (.inl hs)) fun hs => .inr (.inl hs), h⟩
  · obtain ⟨s, hs, h⟩ := hkeeps' k hk
    exact ⟨s, hs.elim (fun hs => .inl (.inr hs)) fun hs => .inr (.inr hs), h⟩

/-- More may be shown by what waits. -/
theorem mono (h : body.Covers source waiting ks after)
    (hks : ∀ k ∈ ks', k ∈ ks ∨ ∃ s ∈ waiting', s.Keeps source k)
    (hwaiting : ∀ s ∈ waiting, ∀ k, s.Keeps source k → ∃ s' ∈ waiting', s'.Keeps source k) :
    body.Covers source waiting' ks' after := by
  obtain ⟨new, hnew, hkeeps⟩ := h
  refine ⟨new, hnew, fun k hk => ?_⟩
  rcases hks k hk with hk | ⟨s, hs, h⟩
  · obtain ⟨s, hs, h⟩ := hkeeps k hk
    rcases List.mem_append.1 hs with hs | hs
    · obtain ⟨s', hs', h'⟩ := hwaiting s hs k h
      exact ⟨s', List.mem_append_left _ hs', h'⟩
    · exact ⟨s, List.mem_append_right _ hs, h⟩
  · exact ⟨s, List.mem_append_left _ hs, h⟩

/-- One more block, of all that waited. -/
theorem alloc {b : Block} (h : body.Covers source b.statements ks after) :
    body.Covers source [] ks (after.alloc b) := by
  obtain ⟨new, hnew, hkeeps⟩ := h
  refine ⟨new ++ [b], ?_, fun k hk => ?_⟩
  · rw [Body.alloc, Array.toList_push, hnew, List.append_assoc]
  · obtain ⟨s, hs, h⟩ := hkeeps k hk
    refine ⟨s, ?_, h⟩
    simp only [List.flatMap_append, List.mem_append, List.flatMap_singleton,
      List.nil_append] at hs ⊢
    exact hs.symm

end Body.Covers

namespace Java.Tree

open Body (Covers)

variable {source : List Char}

/-- Each stretch of the statement is shown, when the tree is well formed and its places are
between tokens. -/
def Covered (source : List Char) (t : Tree) : Prop :=
  t.WellFormed → t.Stands (Place.Between source) → ∀ body : Body,
    let r := (t.statement source).run body
    Covers source body [r.1] (t.stretches source) r.2

theorem covers_blockOf {body after : Body} {s : Statement} {ks : List ByteRange} (t : Tree)
    (h : Covers source body [s] ks after) :
    Covers source body [] ks ((blockOf t s).run after).2 := by
  by_cases hs : ∃ id, s = .block id
  · obtain ⟨id, rfl⟩ := hs
    refine h.mono (fun k hk => .inl hk) fun s hs k hk => ?_
    rw [List.mem_singleton.1 hs] at hk
    exact absurd hk (Statement.not_keeps_block id)
  · have hrun : (blockOf t s).run after =
        (after.size, after.alloc (.unbraced s t.extent.span t.hasFault)) := by
      cases s with
      | block id => exact absurd ⟨id, rfl⟩ hs
      | _ => rfl
    rw [hrun]
    exact Covers.alloc (b := .unbraced s t.extent.span t.hasFault) h

section Parts

variable {parts : List (Role × Tree)} (hw : ∀ p ∈ parts, p.2.WellFormed)
  (hplaces : ∀ p ∈ parts, p.2.Stands (Place.Between source))
  (h : ∀ p ∈ parts, Covered source p.2)
include hw hplaces h

theorem covers_statements (body : Body) : let r := (statements source parts).run body
    Covers source body r.1 (stretchesOfStatements source parts) r.2 := by
  induction parts generalizing body with
  | nil =>
    rw [statements, stretchesOfStatements]
    exact .refl body fun _ hk => absurd hk List.not_mem_nil
  | cons p rest ih =>
    obtain ⟨role, t⟩ := p
    obtain ⟨hwt, hw⟩ := List.forall_mem_cons.1 hw
    obtain ⟨hpt, hplaces⟩ := List.forall_mem_cons.1 hplaces
    obtain ⟨ht, h⟩ := List.forall_mem_cons.1 h
    rw [statements, stretchesOfStatements]
    by_cases hbrace : t.isBrace = true
    · rw [if_pos hbrace, if_pos hbrace]
      exact ih hw hplaces h body
    · rw [if_neg hbrace, if_neg hbrace]
      exact (ht hwt hpt body).trans (ih hw hplaces h _)

theorem covers_lastStatement (body : Body) : let r := (lastStatement source parts).run body
    Covers source body r.1.toList (stretchesOfLast source parts) r.2 := by
  induction parts with
  | nil =>
    rw [lastStatement, stretchesOfLast]
    exact .refl body fun _ hk => absurd hk List.not_mem_nil
  | cons p rest ih =>
    obtain ⟨role, t⟩ := p
    obtain ⟨hwt, hw⟩ := List.forall_mem_cons.1 hw
    obtain ⟨hpt, hplaces⟩ := List.forall_mem_cons.1 hplaces
    obtain ⟨ht, h⟩ := List.forall_mem_cons.1 h
    rw [lastStatement, stretchesOfLast]
    by_cases hnamed : rest.any (fun p => p.2.isNamed) = true
    · rw [if_pos hnamed, if_pos hnamed]
      exact ih hw hplaces h
    · rw [if_neg hnamed, if_neg hnamed]
      by_cases hself : t.isNamed = true
      · rw [if_pos hself, if_pos hself]
        exact ht hwt hpt body
      · rw [if_neg hself, if_neg hself]
        exact .refl body fun _ hk => absurd hk List.not_mem_nil

theorem covers_ownedBlocks {outer : NodeKind}
    (hclause : ∀ role kind e ps, (role, node kind e ps) ∈ parts → isClause outer kind = true →
      ∀ clause body, Covers source body [] (stretchesOfOwned source kind [.body] ps)
        ((ownedBlocks source kind (some clause) [.body] ps).run body).2)
    (clause : Option OwnedAs) (roles : List Role) (body : Body) :
    Covers source body [] (stretchesOfOwned source outer roles parts)
      ((ownedBlocks source outer clause roles parts).run body).2 := by
  induction parts generalizing roles body with
  | nil =>
    rw [ownedBlocks, stretchesOfOwned]
    exact .refl body fun _ hk => absurd hk List.not_mem_nil
  | cons p rest ih =>
    obtain ⟨role, t⟩ := p
    obtain ⟨hwt, hw⟩ := List.forall_mem_cons.1 hw
    obtain ⟨hpt, hplaces⟩ := List.forall_mem_cons.1 hplaces
    obtain ⟨ht, h⟩ := List.forall_mem_cons.1 h
    have hrest := ih hw hplaces h fun role kind e ps hp =>
      hclause role kind e ps (List.mem_cons_of_mem _ hp)
    cases t with
    | leaf kind e =>
      rw [ownedBlocks, stretchesOfOwned]
      split
      · exact (covers_blockOf _ (ht hwt hpt body)).trans (hrest _ _)
      · exact hrest _ body
    | node kind e ps =>
      rw [ownedBlocks, stretchesOfOwned]
      by_cases hkind : isClause outer kind = true
      · rw [if_pos hkind, if_pos hkind]
        exact (hclause role kind e ps (List.mem_cons_self ..) hkind _ body).trans (hrest _ _)
      · rw [if_neg hkind, if_neg hkind]
        split
        · exact (covers_blockOf _ (ht hwt hpt body)).trans (hrest _ _)
        · exact hrest _ body

end Parts

/-- A handler of a `try` with a body is among what is owned. -/
theorem mem_ownedBlocks_clause {outer kind : NodeKind} {e : Extent}
    {parts ps : List (Role × Tree)} {role : Role} (hkind : isClause outer kind = true)
    (hbody : (part? .body ps).isSome) (hmem : (role, node kind e ps) ∈ parts)
    (clause : Option OwnedAs) (roles : List Role) (body : Body) :
    clauseAs source kind e ps ∈
      ((ownedBlocks source outer clause roles parts).run body).1.map Prod.fst := by
  induction parts generalizing roles body with
  | nil => cases hmem
  | cons p rest ih =>
    obtain ⟨role', t⟩ := p
    cases t with
    | leaf kind' e' =>
      have hrest : (role, node kind e ps) ∈ rest :=
        (List.mem_cons.1 hmem).resolve_left fun heq => by cases heq
      rw [ownedBlocks]
      split
      · simp only [run_bind, run_pure, List.map_cons]
        exact List.mem_cons_of_mem _ (ih hrest _ _)
      · exact ih hrest _ body
    | node kind' e' ps' =>
      rw [ownedBlocks]
      rcases List.mem_cons.1 hmem with heq | hrest
      · cases heq
        have howns : OwnsBlocks source kind (some (clauseAs source kind e ps)) [.body] ps body _ :=
          ownsBlocks_clause (fun q _ => lowers q.2) (ne_try_of_isClause hkind) _ _ body
        have hhere := howns.body (fun p _ _ => clauseAs?_eq_none (ne_try_of_isClause hkind) p.2)
          (List.mem_singleton.2 rfl) hbody
        rw [if_pos hkind]
        simp only [run_bind, run_pure, List.map_append]
        exact List.mem_append_left _ hhere
      · split
        · simp only [run_bind, run_pure, List.map_append]
          exact List.mem_append_right _ (ih hrest _ _)
        · split
          · simp only [run_bind, run_pure, List.map_cons]
            exact List.mem_cons_of_mem _ (ih hrest _ _)
          · exact ih hrest _ body

/-! ### Statements that own blocks -/

section Frames

variable {kind : NodeKind} {e : Extent} {parts : List (Role × Tree)} {b : Tree}
  {owned : List (OwnedAs × BlockId)} {k : ByteRange}

theorem statementOf_of_none (h : owned? .body owned = none) :
    statementOf source kind e parts owned = .conditional ⟨e.start.line, conditionText source parts,
      owned? .consequence owned, owned? .alternative owned, e.span⟩ := by
  unfold statementOf
  rw [h]
  cases part? .body parts <;> rfl

theorem frames_compound (hkind : (compoundKind? kind).isSome) (hpart : part? .body parts = some b) :
    frames source kind e parts = [⟨e.start.offset, b.start⟩, ⟨b.stop, e.stop.offset⟩] := by
  unfold frames
  rw [hpart]
  cases kind <;> first | rfl | cases hkind

/-- A loop shows its header and what follows its body. -/
theorem keeps_frames_compound (hkind : (compoundKind? kind).isSome)
    (hpart : part? .body parts = some b) (hid : OwnedAs.body ∈ owned.map Prod.fst)
    (hstart : isBoundary source e.start.offset = true) (hstop : isBoundary source b.stop = true)
    (hk : k ∈ frames source kind e parts) :
    (statementOf source kind e parts owned).Keeps source k := by
  obtain ⟨id, hid⟩ := exists_owned? hid
  obtain ⟨compound, hcompound⟩ := Option.isSome_iff_exists.1 hkind
  rw [frames_compound hkind hpart] at hk
  simp only [statementOf, hpart, hid, statementAround, hcompound]
  rcases List.mem_cons.1 hk with rfl | hk
  · exact .of_trimmedSlice e.start b.extent.start hstart (List.mem_cons_self ..)
  · obtain rfl := List.mem_singleton.1 hk
    by_cases hempty : (trailer source e.stop b).isEmpty = true
    · -- nothing follows the body
      refine .of_slice hstop (List.mem_cons_self ..) ?_
      have hnil : (trailer source e.stop b).toList = [] := by simpa using hempty
      rw [trailer, trimmedSlice, String.toList_ofList] at hnil
      exact hnil ▸ List.nil_infix
    · rw [if_neg hempty]
      exact .of_trimmedSlice b.extent.stop e.stop hstop
        (List.mem_cons_of_mem _ (List.mem_singleton.2 rfl))

/-- A `try` shows its header and those of its handlers. -/
theorem keeps_frames_try (hpart : part? .body parts = some b)
    (hid : OwnedAs.body ∈ owned.map Prod.fst)
    (hclauses : ∀ role kind e ps, (role, node kind e ps) ∈ parts →
      isClause .tryStatement kind = true → (part? .body ps).isSome →
      clauseAs source kind e ps ∈ owned.map Prod.fst)
    (hstart : isBoundary source e.start.offset = true)
    (hparts : ∀ p ∈ parts, p.2.Stands (Place.Between source))
    (hk : k ∈ frames source .tryStatement e parts) :
    (statementOf source .tryStatement e parts owned).Keeps source k := by
  obtain ⟨id, hid⟩ := exists_owned? hid
  have hframes : frames source .tryStatement e parts =
      ⟨e.start.offset, b.start⟩ :: parts.flatMap fun p => p.2.clauseStretch := by
    simp only [frames, hpart]
  rw [hframes] at hk
  simp only [statementOf, hpart, hid, statementAround, compoundKind?]
  rcases List.mem_cons.1 hk with rfl | hk
  · exact .of_trimmedSlice e.start b.extent.start hstart (List.mem_cons_self ..)
  · obtain ⟨⟨role, t⟩, hp, hk⟩ := List.mem_flatMap.1 hk
    unfold clauseStretch at hk
    split at hk
    · next ce ps heq =>
      obtain ⟨cb, hcb, rfl⟩ := List.mem_map.1 hk
      have hbody : part? .body ps = some cb := Option.mem_toList.1 hcb
      obtain rfl : t = node .catchClause ce ps := heq
      have hmem := hclauses role .catchClause ce ps hp (by decide) (by simp [hbody])
      obtain ⟨⟨as, cid⟩, hmem, has⟩ := List.mem_map.1 hmem
      have hheader : as = .handler (trimmedSlice source ce.start cb.extent.start) := by
        have has' : as = clauseAs source .catchClause ce ps := has
        rw [has', clauseAs, if_neg (by decide), hbody]
        rfl
      subst hheader
      refine .of_trimmedSlice ce.start cb.extent.start (hparts _ hp).start.1
        (List.mem_cons_of_mem _ (List.mem_map.2 ⟨⟨_, cid⟩, ?_, rfl⟩))
      exact List.mem_filterMap.2 ⟨_, hmem, rfl⟩
    · cases hk

end Frames

/-- A statement that owns blocks shows its condition or its headers. -/
theorem keeps_frames {kind : NodeKind} {e : Extent} {parts : List (Role × Tree)}
    {roles : List Role} {body : Body} {k : ByteRange}
    (hroles : ownedRoles? source kind e parts = some roles) (hw : (node kind e parts).WellFormed)
    (hplaces : (node kind e parts).Stands (Place.Between source))
    (hk : k ∈ frames source kind e parts) :
    (statementOf source kind e parts
      ((ownedBlocks source kind none roles parts).run body).1).Keeps source k := by
  have howns : OwnsBlocks source kind none roles parts body _ := ownsBlocks_parts kind parts roles body
  have hstart : isBoundary source e.start.offset = true := hplaces.start.1
  rcases ownedRoles?_eq_some hroles with ⟨rfl, rfl⟩ | ⟨b, hpart, rfl, hkind | rfl⟩
  · have hkeys := howns.keys
    rw [clausesAs_eq_nil (by decide)] at hkeys
    rw [statementOf_of_none (owned?_eq_none fun hmem => ?_)]
    · exact keeps_condition hplaces.parts hk _ rfl
    · exact absurd (hkeys.subset hmem) (by decide)
  · have hne : kind ≠ .tryStatement := by
      rintro rfl
      exact absurd hkind (by decide)
    have hmem := howns.body (fun p _ _ => clauseAs?_eq_none hne p.2) (List.mem_singleton.2 rfl)
      (by simp [hpart])
    have hb : b.Stands (Place.Between source) := hplaces.parts _ (mem_of_part? hpart)
    exact keeps_frames_compound hkind hpart hmem hstart hb.stop.1 hk
  · cases hw with
    | node _ _ htry _ =>
      have hshaped := htry rfl
      have hmem := howns.body (fun p hp hb => clauseAs?_try (hshaped.body p hp hb))
        (List.mem_singleton.2 rfl) (by simp [hpart])
      exact keeps_frames_try hpart hmem (fun role kind e ps hp hclause hbody =>
        mem_ownedBlocks_clause hclause hbody hp none [.body] body) hstart hplaces.parts hk

/-- **Each stretch of a statement is shown** by it or by a statement in one of its blocks. -/
theorem covers (t : Tree) : Covered source t := by
  induction t using Tree.induction with
  | hleaf kind e =>
    intro hw hplaces body
    have hstart : isBoundary source e.range.start = true := hplaces.start.1
    rw [stretches]
    cases kind with
    | comment =>
      refine .single body (.of_slice hstart (List.mem_singleton.2 rfl) ?_)
      rw [textIn, String.toList_ofList]
      exact Text.trim_isInfix _
    | name | fixed | missing =>
      rw [statement]
      · exact .single body (.inl ⟨_, List.mem_singleton.2 rfl, rfl, hstart⟩)
      · simp
  | hnode kind e parts ih ih' =>
    intro hw hplaces body
    have hstart : isBoundary source e.range.start = true := hplaces.start.1
    have hparts : ∀ p ∈ parts, p.2.Stands (Place.Between source) := hplaces.parts
    have hwparts : ∀ p ∈ parts, p.2.WellFormed := hw.parts
    have whole : ∀ s : Statement, (node kind e parts).verbatim source ∈ s.verbatims →
        s.Keeps source e.range := fun s hs => .inl ⟨_, hs, rfl, hstart⟩
    by_cases hblock : kind = .block
    · subst hblock
      rw [statement, stretches, if_pos rfl]
      have hinner : Covers source body _ _ _ := covers_statements hwparts hparts ih body
      exact (Covers.alloc (b := ⟨_, e.span, true, (node .block e parts).hasFault, false⟩)
        hinner).mono (fun k hk => .inl hk) fun s hs => absurd hs List.not_mem_nil
    rw [statement, stretches, if_neg hblock]
    swap
    · exact hblock
    cases hexit : exitKind? kind with
    | some exit =>
      rw [Option.isSome_some, if_pos rfl]
      exact .single body (whole _ (List.mem_singleton.2 rfl))
    | none =>
      rw [Option.isSome_none, if_neg Bool.false_ne_true]
      cases hroles : ownedRoles? source kind e parts with
      | some roles =>
        have howned : Covers source body [] (stretchesOfOwned source kind roles parts) _ :=
          covers_ownedBlocks hwparts hparts ih (fun role kind' e' ps hp hclause clause =>
            covers_ownedBlocks (hwparts _ hp).parts (hparts _ hp).parts (ih' _ hp)
              (fun role kind'' e'' ps' _ hclause' => by
                rw [isClause_eq_false (ne_try_of_isClause hclause)] at hclause'
                cases hclause') (some clause) [.body]) none roles body
        simp only [run_bind, run_pure]
        refine howned.mono (fun k hk => ?_) fun s hs => absurd hs List.not_mem_nil
        rcases List.mem_append.1 hk with hk | hk
        · exact .inr ⟨_, List.mem_singleton.2 rfl, keeps_frames hroles hw hplaces hk⟩
        · exact .inl hk
      | none =>
        by_cases hlabel : kind = .labeledStatement ∧ (label? parts).isSome
        · obtain ⟨label, hl⟩ := Option.isSome_iff_exists.1 hlabel.2
          have hlast : Covers source body _ (stretchesOfLast source parts) _ :=
            covers_lastStatement hwparts hparts ih body
          obtain ⟨hsome, -⟩ := grows_lastStatement parts
            (fun p _ => (lowers p.2 : Lowers source p.2)) body
          rw [isNamed_of_label? hlabel.2] at hsome
          obtain ⟨s, hs⟩ := Option.isSome_iff_exists.1 hsome
          rw [hs] at hlast
          simp only [hlabel.1, hl, if_true, Option.isSome_some, and_self, run_bind, run_pure, hs,
            Option.getD_some]
          refine hlast.mono (fun k hk => .inl hk) fun s' hs' k hk => ?_
          obtain rfl := List.mem_singleton.1 hs'
          exact ⟨_, List.mem_singleton.2 rfl, hk⟩
        · have hnone : (if kind = .labeledStatement then label? parts else none) = none := by
            by_cases hk : kind = .labeledStatement
            · simpa [hk] using hlabel
            · rw [if_neg hk]
          rw [if_neg hlabel, hnone]
          exact .single body (whole _ (List.mem_singleton.2 rfl))

/-- **Each stretch of a body is shown** by a statement of the body that was read. -/
theorem exists_keeps {t : Tree} (hw : t.WellFormed) (hplaces : t.Stands (Place.Between source))
    {k : ByteRange} (hk : k ∈ stretchesOfStatements source t.parts) :
    ∃ id b s, (t.bodyIn source).Reaches Body.root id ∧ (t.bodyIn source).block id = .ok b ∧
      s ∈ b.statements ∧ s.Keeps source k := by
  have hcovers : Covers source (Body.ofRoot t.root) _ _ _ :=
    covers_statements hw.parts hplaces.parts (fun p _ => covers p.2) (Body.ofRoot t.root)
  obtain ⟨new, hnew, hkeeps⟩ := hcovers
  have hblocks := blocks_bodyIn source t hnew
  obtain ⟨s, hs, h⟩ := hkeeps k hk
  obtain ⟨b, hb, hs⟩ : ∃ b ∈ (t.bodyIn source).blocks.toList, s ∈ b.statements := by
    rw [hblocks]
    rcases List.mem_append.1 hs with hs | hs
    · exact ⟨_, List.mem_cons_self .., hs⟩
    · obtain ⟨b, hb, hs⟩ := List.mem_flatMap.1 hs
      exact ⟨b, List.mem_cons_of_mem _ hb, hs⟩
  obtain ⟨id, hid⟩ := List.mem_iff_getElem?.1 hb
  rw [Array.getElem?_toList] at hid
  have hblock := Body.block_eq_ok.2 hid
  exact ⟨id, b, s, (readFrom_bodyIn hw).reaches id (Body.lt_size_of_block_eq_ok hblock), hblock,
    hs, h⟩

end Java.Tree

end BranchExclusion
