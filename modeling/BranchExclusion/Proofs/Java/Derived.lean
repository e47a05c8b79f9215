import BranchExclusion.Proofs.Java.Moved
import BranchExclusion.Proofs.Java.Patched

/-!
# What is derived from a source

* `DerivedFrom`: a derivation from chunks of the source;
* `Tree.Derived`: a tree whose nodes are derived from chunks of the source;
* `Tree.leaves`, `Derives.exists_leaves`: the leaves are the tokens that were read;
* `Parted`: a place between two tokens, `Parted.tokensIn_eq`: the tokens between two places.
-/

namespace BranchExclusion.Java

variable {source : List Char} {es es' : List Symbol} {cs mid rest : List Chunk} {ps qs parts : Parts}
  {role : Role} {kind : NodeKind}

/-! ### Derivations from a source -/

/-- The symbols derive the parts from chunks of the source. -/
structure DerivedFrom (source : List Char) (es : List Symbol) (cs : List Chunk) (ps : Parts)
    (rest : List Chunk) : Prop where
  derives : Derives es cs ps rest
  paired : Paired cs
  tokens : tokensOf cs <:+: tokens source

/-- Where no text is new, every tree is as before. -/
theorem Tree.admits_nil (t : Tree) : t.Admits [] := by
  induction t using Tree.induction with
  | hleaf kind e => exact .leaf (List.forall_mem_nil _)
  | hnode kind e parts ih => exact .node ih

theorem flatMap_writtenFor_nil (ts : List Token) : ts.flatMap (writtenFor []) = wordsOf ts := by
  induction ts with
  | nil => rfl
  | cons t ts ih =>
    rw [List.flatMap_cons, ih]
    cases hcomment : t.isComment <;> simp [writtenFor, wordsOf, hcomment]

theorem wordsOf_comments {ts : List Token} (h : ∀ t ∈ ts, t.isComment = true) : wordsOf ts = [] := by
  rw [wordsOf, List.filter_eq_nil_iff.2 fun t ht => by simp [h t ht]]
  rfl

theorem exists_chained {ts : List Token} (h : ts <:+: tokens source) : ∃ lo hi, Chained lo hi ts := by
  obtain ⟨before, behind, hsplit⟩ := h
  have hchained := chained_tokensAt Place.start source
  have htokens : tokensAt Place.start source = before ++ ts ++ behind := hsplit.symm
  rw [htokens] at hchained
  obtain ⟨hi, hchained, -⟩ := chained_append.1 hchained
  obtain ⟨lo, -, hchained⟩ := chained_append.1 hchained
  exact ⟨lo, hi, hchained⟩

/-- Two lexemes that are a pair of brackets. -/
structure Brackets (o c : Lexeme) : Prop where
  opening : o.Proper
  opens : o.token.word.opens = true
  opening_stray : o.token.word.isStray = false
  closing : c.Proper
  closes : c.token.word.is (closerOf o.token.word) = true
  closing_stray : c.token.word.isStray = false

namespace DerivedFrom

theorem exists_rereads (h : DerivedFrom source es cs ps rest) {edits : List Edit}
    (hedits : edits.Pairwise fun e f => e.range.Disjoint f.range)
    (hadmits : ∀ p ∈ ps, p.2.Admits edits) : ∃ ss used, Rereads edits es cs rest ss used := by
  obtain ⟨lo, hi, hchained⟩ := exists_chained h.tokens
  exact h.derives.exists_reads hedits h.paired hchained hadmits

/-- What was derived is read as it stands. -/
theorem exists_plain (h : DerivedFrom source es cs ps rest) : ∃ ss used,
    Rereads [] es cs rest ss used ∧ wordsIn ss = wordsOf used := by
  obtain ⟨ss, used, hss⟩ := h.exists_rereads .nil fun p _ => p.2.admits_nil
  exact ⟨ss, used, hss, by rw [hss.words, flatMap_writtenFor_nil]⟩

/-- What is left is left of the source. -/
theorem left (h : DerivedFrom source es cs ps mid) :
    Paired mid ∧ tokensOf mid <:+: Java.tokens source := by
  obtain ⟨ss, used, hss, -⟩ := h.exists_plain
  refine ⟨hss.paired, ?_⟩
  have hsuffix : tokensOf mid <:+ tokensOf cs := ⟨used, hss.tokens.symm⟩
  exact hsuffix.isInfix.trans h.tokens

theorem split (h : DerivedFrom source (es ++ es') cs parts rest) : ∃ ps qs mid, parts = ps ++ qs ∧
    DerivedFrom source es cs ps mid ∧ DerivedFrom source es' mid qs rest := by
  obtain ⟨ps, qs, mid, hparts, hps, hqs⟩ := h.derives.split
  have hfirst : DerivedFrom source es cs ps mid := ⟨hps, h.paired, h.tokens⟩
  exact ⟨ps, qs, mid, hparts, hfirst, hqs, hfirst.left.1, hfirst.left.2⟩

theorem cons {e : Symbol} (h : DerivedFrom source (e :: es) cs parts rest) : ∃ ps qs mid,
    parts = ps ++ qs ∧ DerivedFrom source [e] cs ps mid ∧ DerivedFrom source es mid qs rest :=
  @split source [e] es cs rest parts h

theorem of_nil (h : DerivedFrom source [] cs parts rest) : parts = [] ∧ cs = rest := by
  cases h.derives
  exact ⟨rfl, rfl⟩

theorem phrase {p : Phrase} (h : DerivedFrom source [.phrase p] cs parts rest) :
    DerivedFrom source (p.expand (viewOf cs)) cs parts rest :=
  ⟨derives_phrase h.derives, h.paired, h.tokens⟩

theorem token (h : DerivedFrom source [.token role] cs parts rest) : ∃ w, cs = .word w :: rest ∧
    parts = w.parts role ∧ w.token.word.isStray = false ∧ w.token.word.closes = false := by
  cases h.derives with
  | token hw hnil =>
    cases hnil
    exact ⟨_, rfl, List.append_nil _, hw⟩

theorem node (h : DerivedFrom source [.node role kind] cs parts rest) : ∃ place qs, kind ≠ .error ∧
    qs ≠ [] ∧ parts = leadOf cs ++ [(role, .node kind (extentOf place qs) qs)] ∧
      DerivedFrom source [.phrase (.inside kind)] (bareOf cs) qs rest := by
  cases h.derives with
  | @node _ _ place _ _ _ _ qs _ hkind hqs hinside hnil =>
    cases hnil
    obtain ⟨hbare, comments, -, htokens⟩ := exists_tokensOf_bareOf h.paired
    have hsuffix : tokensOf (bareOf cs) <:+ tokensOf cs := ⟨comments, htokens.symm⟩
    exact ⟨place, qs, hkind, hqs, rfl, hinside, hbare, hsuffix.isInfix.trans h.tokens⟩

theorem group {opening : String} {p : Phrase}
    (h : DerivedFrom source [.group opening p] cs parts rest) : ∃ o inner c qs,
      cs = .group o inner (some c) :: rest ∧ o.token.word.is opening = true ∧ Brackets o c ∧
        parts = o.parts .part ++ qs ++ c.parts .part ∧ DerivedFrom source [.phrase p] inner qs [] := by
  obtain ⟨hderives, hpaired, htokens⟩ := h
  cases hderives with
  | @group _ _ o c _ inner _ _ qs _ hopening ho hc hinner hnil =>
    cases hnil
    cases hpaired with
    | group hproper hopens hclosing hpaired _ =>
      obtain ⟨hproper', hcloses⟩ := hclosing c rfl
      refine ⟨o, inner, c, qs, rfl, hopening, ⟨hproper, hopens, ho, hproper', hcloses, hc⟩,
        List.append_nil _, hinner, hpaired, ?_⟩
      rw [tokensOf_cons, Chunk.tokens_group] at htokens
      refine List.IsInfix.trans ?_ htokens
      exact ⟨o.tokens, c.tokens ++ tokensOf rest, by simp⟩

end DerivedFrom

/-! ### Trees -/

/-- Every node of the tree is derived from chunks of the source. -/
inductive Tree.Derived (source : List Char) : Tree → Prop
  | leaf (kind : LeafKind) (e : Extent) : Derived source (leaf kind e)
  | node {kind : NodeKind} {place : Place} {cs rest : List Chunk} {ps : Parts} : kind ≠ .error →
      ps ≠ [] → DerivedFrom source [.phrase (.inside kind)] (bareOf cs) ps rest →
      (∀ p ∈ ps, Derived source p.2) → Derived source (node kind (extentOf place ps) ps)

theorem Tree.Derived.forall_parts {t : Tree} (h : t.Derived source) :
    ∀ p ∈ t.parts, p.2.Derived source := by
  cases h with
  | leaf => exact fun _ hp => absurd hp List.not_mem_nil
  | node _ _ _ hparts => exact hparts

/-- What is derived from the source is a derived tree. -/
theorem DerivedFrom.derived (h : DerivedFrom source es cs parts rest) :
    ∀ p ∈ parts, p.2.Derived source := by
  obtain ⟨hderives, hpaired, htokens⟩ := h
  have hleaf : ∀ (w : Lexeme) role, w.token.word.isStray = false →
      ∀ p ∈ w.parts role, p.2.Derived source := fun w role hw =>
    forall_mem_parts (fun e => .leaf .comment e) hw fun kind e => .leaf kind e
  induction hderives with
  | nil => exact List.forall_mem_nil _
  | @token role w es cs rest parts hw hrest ih =>
    have hfirst : DerivedFrom source [.token role] _ _ cs := ⟨.token hw .nil, hpaired, htokens⟩
    have hleft := hfirst.left
    exact List.forall_mem_append.2 ⟨hleaf w role hw.1, ih hleft.1 hleft.2⟩
  | @raw taken cs rest es ps parts hflat hrest ih =>
    have hfirst : DerivedFrom source [.raw taken.length] _ _ cs := ⟨.raw hflat .nil, hpaired, htokens⟩
    have hleft := hfirst.left
    refine List.forall_mem_append.2 ⟨?_, ih hleft.1 hleft.2⟩
    exact hflat.forall_parts (Q := fun p => p.2.Derived source) fun kind e => .leaf kind e
  | @group opening p o c es inner cs rest ps parts hopening ho hc hinner hrest ihinner ih =>
    have hfirst : DerivedFrom source [.group opening p] (.group o inner (some c) :: cs) _ cs :=
      ⟨.group hopening ho hc hinner .nil, hpaired, htokens⟩
    obtain ⟨o', inner', c', ps', heq, -, -, -, hinner'⟩ := hfirst.group
    obtain ⟨⟨rfl, rfl, hc'⟩, -⟩ : (o = o' ∧ inner = inner' ∧ some c = some c') ∧ cs = cs := by
      simpa using heq
    exact List.forall_mem_append.2 ⟨List.forall_mem_append.2 ⟨List.forall_mem_append.2
      ⟨hleaf o .part ho, ihinner hinner'.paired hinner'.tokens⟩, hleaf c .part hc⟩,
      ih hfirst.left.1 hfirst.left.2⟩
  | @node role kind place es cs mid rest ps parts hkind hps hinside hrest ihinside ih =>
    have hfirst : DerivedFrom source [.node role kind] cs
        (leadOf cs ++ [(role, .node kind (extentOf place ps) ps)]) mid :=
      ⟨.node hkind hps hinside .nil, hpaired, htokens⟩
    obtain ⟨hbare, comments, -, hsplit⟩ := exists_tokensOf_bareOf hpaired
    have hsuffix : tokensOf (bareOf cs) <:+ tokensOf cs := ⟨comments, hsplit.symm⟩
    have hbare' : DerivedFrom source [.phrase (.inside kind)] (bareOf cs) ps mid :=
      ⟨hinside, hbare, hsuffix.isInfix.trans htokens⟩
    refine List.forall_mem_append.2 ⟨fun p hp => ?_, List.forall_mem_cons.2 ⟨?_,
      ih hfirst.left.1 hfirst.left.2⟩⟩
    · cases cs with
      | nil => cases hp
      | cons c cs =>
        obtain ⟨t, -, rfl⟩ := List.mem_map.1 hp
        exact .leaf .comment t.extent
    · exact .node hkind hps hbare' (ihinside hbare hbare'.tokens)
  | phrase hp hrest ihp ih =>
    have hfirst := DerivedFrom.left ⟨hp, hpaired, htokens⟩
    exact List.forall_mem_append.2 ⟨ihp hpaired htokens, ih hfirst.1 hfirst.2⟩
  | done _ _ ih => exact ih hpaired htokens
  | more _ _ hp hrest ihp ih =>
    have hfirst := DerivedFrom.left ⟨hp, hpaired, htokens⟩
    exact List.forall_mem_append.2 ⟨ihp hpaired htokens, ih hfirst.1 hfirst.2⟩

/-! ### Leaves -/

namespace Tree

mutual

/-- The leaves of a tree. -/
def leaves : Tree → List Extent
  | leaf _ e => [e]
  | node _ _ parts => leavesOf parts

/-- The leaves of parts. -/
def leavesOf : List (Role × Tree) → List Extent
  | [] => []
  | p :: rest => p.2.leaves ++ leavesOf rest

end

/-- The tree starts and ends with its leaves. -/
def Tight (t : Tree) : Prop :=
  t.leaves.head?.map Extent.start = some t.extent.start ∧
    t.leaves.getLast?.map Extent.stop = some t.extent.stop

@[simp] theorem leaves_leaf (kind : LeafKind) (e : Extent) : (leaf kind e).leaves = [e] := by
  rw [leaves]

@[simp] theorem leaves_node (kind : NodeKind) (e : Extent) (parts : Parts) :
    (node kind e parts).leaves = leavesOf parts := by rw [leaves]

@[simp] theorem leavesOf_nil : leavesOf [] = [] := by rw [leavesOf]

@[simp] theorem leavesOf_cons (p : Role × Tree) (parts : Parts) :
    leavesOf (p :: parts) = p.2.leaves ++ leavesOf parts := by rw [leavesOf]

@[simp] theorem leavesOf_append (ps qs : Parts) : leavesOf (ps ++ qs) = leavesOf ps ++ leavesOf qs := by
  induction ps with
  | nil => simp
  | cons p ps ih => simp [ih]

theorem tight_leaf (kind : LeafKind) (e : Extent) : (leaf kind e).Tight := by simp [Tight, extent]

theorem Tight.ne_nil {t : Tree} (h : t.Tight) : t.leaves ≠ [] := by
  intro hnil
  have hstart := h.1
  rw [hnil] at hstart
  cases hstart

/-- A node starts and ends with its leaves when its parts do. -/
theorem tight_node (kind : NodeKind) (place : Place) (hps : ps ≠ []) (h : ∀ p ∈ ps, p.2.Tight) :
    (node kind (extentOf place ps) ps).Tight := by
  constructor
  · obtain ⟨p, ps, rfl⟩ := List.exists_cons_of_ne_nil hps
    have hp := h p List.mem_cons_self
    rw [leaves_node, leavesOf_cons, List.head?_append_of_ne_nil _ hp.ne_nil, hp.1]
    rfl
  · obtain ⟨ps, p, rfl⟩ := List.eq_nil_or_concat' ps |>.resolve_left hps
    have hp := h p (by simp)
    rw [leaves_node, leavesOf_append, leavesOf_cons, leavesOf_nil, List.append_nil,
      List.getLast?_append_of_ne_nil _ hp.ne_nil, hp.2]
    simp [extent, extentOf]

end Tree

open BranchExclusion.Java.Tree (leavesOf)

theorem leavesOf_lead (w : Lexeme) : leavesOf w.lead = w.comments.map Token.extent ∧
    ∀ p ∈ w.lead, p.2.Tight := by
  unfold Lexeme.lead
  constructor
  · induction w.comments with
    | nil => simp
    | cons c comments ih => simp [ih]
  · intro p hp
    obtain ⟨c, -, rfl⟩ := List.mem_map.1 hp
    exact Tree.tight_leaf .comment c.extent

theorem leavesOf_parts {w : Lexeme} (hw : w.token.word.isStray = false) (role : Role) :
    leavesOf (w.parts role) = w.tokens.map Token.extent ∧ ∀ p ∈ w.parts role, p.2.Tight := by
  obtain ⟨hlead, htight⟩ := leavesOf_lead w
  constructor
  · rw [Lexeme.parts, Tree.leavesOf_append, hlead, tree_eq hw]
    simp [Lexeme.tokens]
  · rw [Lexeme.parts, tree_eq hw]
    exact List.forall_mem_append.2 ⟨htight, List.forall_mem_singleton.2 (Tree.tight_leaf _ _)⟩

theorem proper_first {c : Chunk} (h : Paired (c :: cs)) : c.first.Proper := by
  cases h with
  | word hw => exact hw
  | group ho => exact ho

/-- The comments before chunks. -/
theorem leavesOf_leadOf (cs : List Chunk) : ∃ comments, tokensOf cs = comments ++ tokensOf (bareOf cs) ∧
    leavesOf (leadOf cs) = comments.map Token.extent ∧ (∀ p ∈ leadOf cs, p.2.Tight) ∧
      (Paired cs → ∀ t ∈ comments, t.isComment = true) := by
  cases cs with
  | nil => exact ⟨[], rfl, by simp [leadOf], List.forall_mem_nil _, fun _ => List.forall_mem_nil _⟩
  | cons c cs =>
    obtain ⟨hleaves, htight⟩ := leavesOf_lead c.first
    refine ⟨c.first.comments, ?_, hleaves, htight, fun h => (proper_first h).comments⟩
    rw [bareOf, tokensOf_cons, tokensOf_cons, c.tokens_bare, List.append_assoc]

theorem Flat.leavesOf (h : Flat cs parts) :
    Tree.leavesOf parts = (tokensOf cs).map Token.extent ∧ ∀ p ∈ parts, p.2.Tight := by
  induction h with
  | nil => simp
  | word hw _ ih =>
    obtain ⟨hparts, htight⟩ := leavesOf_parts hw.1 .part
    exact ⟨by simp [hparts, ih.1], List.forall_mem_append.2 ⟨htight, ih.2⟩⟩
  | group ho hc _ _ ihinner ih =>
    obtain ⟨hparts, htight⟩ := leavesOf_parts ho .part
    obtain ⟨hparts', htight'⟩ := leavesOf_parts hc .part
    refine ⟨by simp [hparts, hparts', ihinner.1, ih.1], ?_⟩
    exact List.forall_mem_append.2 ⟨List.forall_mem_append.2 ⟨List.forall_mem_append.2
      ⟨htight, ihinner.2⟩, htight'⟩, ih.2⟩

/-- **The leaves of what was derived are the tokens that were read.** -/
theorem Derives.exists_leaves (h : Derives es cs parts rest) : ∃ used,
    tokensOf cs = used ++ tokensOf rest ∧ leavesOf parts = used.map Token.extent ∧
      ∀ p ∈ parts, p.2.Tight := by
  induction h with
  | nil => exact ⟨[], rfl, by simp, List.forall_mem_nil _⟩
  | @token role w _ _ _ _ hw _ ih =>
    obtain ⟨used, hused, hleaves, htight⟩ := ih
    obtain ⟨hparts, htight'⟩ := leavesOf_parts hw.1 role
    exact ⟨w.tokens ++ used, by simp [hused], by simp [hparts, hleaves],
      List.forall_mem_append.2 ⟨htight', htight⟩⟩
  | @raw taken _ _ _ _ _ hflat _ ih =>
    obtain ⟨used, hused, hleaves, htight⟩ := ih
    obtain ⟨hparts, htight'⟩ := hflat.leavesOf
    exact ⟨tokensOf taken ++ used, by simp [hused], by simp [hparts, hleaves],
      List.forall_mem_append.2 ⟨htight', htight⟩⟩
  | @group _ _ o c _ _ _ _ _ _ _ ho hc _ _ ihinner ih =>
    obtain ⟨inner, hinner, hleaves₁, htight₁⟩ := ihinner
    obtain ⟨used, hused, hleaves, htight⟩ := ih
    obtain ⟨hparts, htight₀⟩ := leavesOf_parts ho .part
    obtain ⟨hparts', htight₂⟩ := leavesOf_parts hc .part
    rw [tokensOf_nil, List.append_nil] at hinner
    refine ⟨o.tokens ++ inner ++ c.tokens ++ used, by simp [hinner, hused],
      by simp [hparts, hparts', hleaves₁, hleaves], ?_⟩
    exact List.forall_mem_append.2 ⟨List.forall_mem_append.2 ⟨List.forall_mem_append.2
      ⟨htight₀, htight₁⟩, htight₂⟩, htight⟩
  | @node role kind place _ cs _ _ ps _ _ hps _ _ ihinside ih =>
    obtain ⟨inner, hinner, hleaves₁, htight₁⟩ := ihinside
    obtain ⟨used, hused, hleaves, htight⟩ := ih
    obtain ⟨comments, htokens, hleaves₀, htight₀, -⟩ := leavesOf_leadOf cs
    refine ⟨comments ++ inner ++ used, by simp [htokens, hinner, hused],
      by simp [hleaves₀, hleaves₁, hleaves], ?_⟩
    exact List.forall_mem_append.2 ⟨htight₀, List.forall_mem_cons.2
      ⟨Tree.tight_node kind place hps htight₁, htight⟩⟩
  | phrase _ _ ihp ih =>
    obtain ⟨first, hfirst, hleaves₁, htight₁⟩ := ihp
    obtain ⟨used, hused, hleaves, htight⟩ := ih
    exact ⟨first ++ used, by simp [hfirst, hused], by simp [hleaves₁, hleaves],
      List.forall_mem_append.2 ⟨htight₁, htight⟩⟩
  | done _ _ ih => exact ih
  | more _ _ _ _ ihp ih =>
    obtain ⟨first, hfirst, hleaves₁, htight₁⟩ := ihp
    obtain ⟨used, hused, hleaves, htight⟩ := ih
    exact ⟨first ++ used, by simp [hfirst, hused], by simp [hleaves₁, hleaves],
      List.forall_mem_append.2 ⟨htight₁, htight⟩⟩

/-! ### The tokens between two places -/

/-- The tokens of the source stand before a place and behind it. -/
structure Parted (source : List Char) (before behind : List Token) (n : ℕ) : Prop where
  split : tokens source = before ++ behind
  before : ∀ t ∈ before, t.extent.stop.offset ≤ n
  behind : ∀ t ∈ behind, n ≤ t.extent.start.offset
  cut : Cut source n

section Parted

variable {before ts behind : List Token} {t : Token} {lo hi : ℕ}

theorem parted_start (h : tokens source = before ++ t :: behind) :
    Parted source before (t :: behind) t.extent.start.offset := by
  have hpairwise := pairwise_tokensAt Place.start source
  have htokens : tokensAt Place.start source = before ++ t :: behind := h
  have ht : t ∈ tokens source := by simp [h]
  rw [htokens, List.pairwise_append] at hpairwise
  obtain ⟨-, hbehind, hbefore⟩ := hpairwise
  refine ⟨h, fun u hu => hbefore u hu t List.mem_cons_self,
    List.forall_mem_cons.2 ⟨Nat.le_refl _, fun u hu => ?_⟩, (between_of_mem_tokens ht).1⟩
  have := (List.pairwise_cons.1 hbehind).1 u hu
  have := start_lt_stop ht
  omega

theorem parted_stop (h : tokens source = before ++ [t] ++ behind) :
    Parted source (before ++ [t]) behind t.extent.stop.offset := by
  have hpairwise := pairwise_tokensAt Place.start source
  have htokens : tokensAt Place.start source = before ++ [t] ++ behind := h
  have hall : ∀ u ∈ before ++ [t], u ∈ tokens source := fun u hu => h ▸ List.mem_append_left _ hu
  have ht := hall t (List.mem_concat_self ..)
  rw [htokens, List.pairwise_append] at hpairwise
  obtain ⟨hbefore, -, hbehind⟩ := hpairwise
  refine ⟨h, List.forall_mem_append.2 ⟨fun u hu => ?_, List.forall_mem_singleton.2 (Nat.le_refl _)⟩,
    hbehind t (List.mem_concat_self ..), (between_of_mem_tokens ht).2⟩
  have := (List.pairwise_append.1 hbefore).2.2 u hu t (List.mem_singleton_self t)
  have := start_lt_stop ht
  omega

/-- Between two places stand the tokens that are behind the first one and before the second one. -/
theorem Parted.tokensIn_eq (h : Parted source before (ts ++ behind) lo)
    (h' : Parted source (before ++ ts) behind hi) : tokensIn source lo hi = ts := by
  have hlt : ∀ t ∈ tokens source, t.extent.start.offset < t.extent.stop.offset :=
    fun t ht => start_lt_stop ht
  rw [h'.split] at hlt
  rw [tokensIn, h'.split, List.filter_append, List.filter_append]
  have hnil : before.filter (fun t =>
      decide (lo ≤ t.extent.start.offset) && decide (t.extent.stop.offset ≤ hi)) = [] := by
    refine List.filter_eq_nil_iff.2 fun t ht => ?_
    have := h.before t ht
    have := hlt t (by simp [ht])
    simp
    omega
  have hnil' : behind.filter (fun t =>
      decide (lo ≤ t.extent.start.offset) && decide (t.extent.stop.offset ≤ hi)) = [] := by
    refine List.filter_eq_nil_iff.2 fun t ht => ?_
    have := h'.behind t ht
    have := hlt t (by simp [ht])
    simp
    omega
  rw [hnil, hnil', List.nil_append, List.append_nil]
  refine List.filter_eq_self.2 fun t ht => ?_
  simp [h.behind t (List.mem_append_left _ ht), h'.before t (List.mem_append_right _ ht)]

/-- The text between two places has the words of the tokens there. -/
theorem Parted.words_trimmedSlice (hs : Tidy source) {start stop : Place}
    (h : Parted source before (ts ++ behind) start.offset)
    (h' : Parted source (before ++ ts) behind stop.offset) (hle : start.offset ≤ stop.offset) :
    words (Tree.trimmedSlice source start stop).toList = wordsOf ts ∧
      Tidy (Tree.trimmedSlice source start stop).toList := by
  obtain ⟨hwords, htidy⟩ := words_trim (tidy_slice hs h.cut h'.cut hle)
  rw [Tree.trimmedSlice, String.toList_ofList]
  exact ⟨by rw [hwords, words_slice hs h.cut h'.cut hle, h.tokensIn_eq h'], htidy⟩

/-- A tree stands where its leaves do. -/
theorem Tree.Tight.parted {u : Tree} (h : u.Tight) (hleaves : u.leaves = ts.map Token.extent)
    (htokens : tokens source = before ++ ts ++ behind) :
    Parted source before (ts ++ behind) u.start ∧ Parted source (before ++ ts) behind u.stop := by
  obtain ⟨hstart, hstop⟩ := h
  rw [hleaves] at hstart hstop
  constructor
  · cases ts with
    | nil => cases hstart
    | cons t ts =>
      have hstart : t.extent.start = u.extent.start := Option.some.inj hstart
      rw [Tree.start, ← hstart]
      exact parted_start (by rw [htokens, List.append_assoc]; rfl)
  · obtain rfl | ⟨ts, t, rfl⟩ := List.eq_nil_or_concat' ts
    · cases hstop
    · rw [List.map_append, List.map_singleton, List.getLast?_concat] at hstop
      have hstop : t.extent.stop = u.extent.stop := Option.some.inj hstop
      rw [Tree.stop, ← hstop, ← List.append_assoc]
      exact parted_stop (by rw [htokens, ← List.append_assoc])

end Parted

/-- The tokens that were read stand in the source. -/
theorem DerivedFrom.exists_used (h : DerivedFrom source es cs ps rest) :
    ∃ before used behind, Java.tokens source = before ++ used ++ behind ∧
      tokensOf cs = used ++ tokensOf rest ∧ leavesOf ps = used.map Token.extent ∧
        ∀ p ∈ ps, p.2.Tight := by
  obtain ⟨used, hused, hleaves, htight⟩ := h.derives.exists_leaves
  obtain ⟨before, behind, htokens⟩ := h.tokens
  refine ⟨before, used, tokensOf rest ++ behind, ?_, hused, hleaves, htight⟩
  rw [← htokens, hused]
  simp

end BranchExclusion.Java
