import BranchExclusion.Proofs.Java.Chunk

/-!
# Derivations

What is read without a syntax error is derived from the grammar.

* `Flat`: chunks as they stand;
* `Derives`: the parts that symbols derive from chunks, and the chunks that are left;
* `derives_of_read`: a reading without faults is a derivation;
* `Derives.append`, `Derives.split`: derivations one behind the other;
* `Derives.forall_parts`: what the phrases of some class give.
-/

namespace BranchExclusion.Java

/-! ### Faults -/

open Java.Tree (faults faultsOf)

theorem faults_node (kind : NodeKind) (e : Extent) (parts : Parts) :
    (Tree.node kind e parts).faults =
      (if kind = .error then [(Tree.unexpected, e.span)] else []) ++ faultsOf parts := by
  rw [faults]

@[simp] theorem faultsOf_nil : faultsOf [] = [] := by rw [faultsOf]

@[simp] theorem faultsOf_cons (p : Role × Tree) (ps : Parts) :
    faultsOf (p :: ps) = p.2.faults ++ faultsOf ps := by rw [faultsOf]

@[simp] theorem faultsOf_append (ps qs : Parts) :
    faultsOf (ps ++ qs) = faultsOf ps ++ faultsOf qs := by
  induction ps with
  | nil => simp
  | cons p ps ih => simp [ih]

@[simp] theorem faultsOf_lead (w : Lexeme) : faultsOf w.lead = [] := by
  unfold Lexeme.lead
  induction w.comments with
  | nil => simp
  | cons c cs ih =>
    rw [List.map_cons, faultsOf_cons, ih]
    rfl

@[simp] theorem faults_lackingAt (what : String) (p : Place) :
    (lackingAt what p).2.faults ≠ [] := List.cons_ne_nil _ _

theorem faults_leaf_token (t : Token) (role : Role) (e : Extent) :
    (Tree.leaf (t.leafKind role) e).faults = [] := by
  unfold Token.leafKind
  split_ifs <;> rfl

theorem faults_token (t : Token) (role : Role) :
    (t.tree role).faults = [] ↔ t.word.isStray = false := by
  unfold Token.tree
  cases hstray : t.word.isStray
  · simpa using faults_leaf_token t role t.extent
  · simp [faults_node]

theorem faultsOf_parts (w : Lexeme) (role : Role) :
    faultsOf (w.parts role) = [] ↔ w.token.word.isStray = false := by
  simp [Lexeme.parts, faults_token]

/-- A word that is read by itself without a fault is no bracket. -/
theorem faultsOf_alone (w : Lexeme) (role : Role) : faultsOf (w.alone role) = [] ↔
    w.alone role = w.parts role ∧ w.token.word.isStray = false ∧ w.token.word.closes = false := by
  unfold Lexeme.alone
  cases w.token.word.closes with
  | true => simp [faults_node]
  | false => simp [faultsOf_parts]

theorem of_faults_nodeOf {role : Role} {kind : NodeKind} {p : Place} {parts : Parts}
    (h : (nodeOf role kind p parts).2.faults = []) :
    kind ≠ .error ∧ parts ≠ [] ∧ faultsOf parts = [] := by
  unfold nodeOf at h
  split_ifs at h with hempty
  · exact absurd h (faults_lackingAt _ _)
  · rw [faults_node, List.append_eq_nil_iff] at h
    refine ⟨fun hkind => ?_, fun hparts => hempty (by simp [hparts]), h.2⟩
    simp [hkind] at h

/-! ### Chunks as they stand -/

/-- The parts of chunks that are taken as they stand. -/
inductive Flat : List Chunk → Parts → Prop
  | nil : Flat [] []
  | word {w : Lexeme} {cs : List Chunk} {parts : Parts} :
      w.token.word.isStray = false ∧ w.token.word.closes = false → Flat cs parts →
      Flat (.word w :: cs) (w.parts .part ++ parts)
  | group {o c : Lexeme} {inner cs : List Chunk} {ps parts : Parts} :
      o.token.word.isStray = false → c.token.word.isStray = false → Flat inner ps → Flat cs parts →
      Flat (.group o inner (some c) :: cs) (o.parts .part ++ ps ++ c.parts .part ++ parts)

theorem Flat.append {cs ds : List Chunk} {ps qs : Parts} (h : Flat cs ps) (h' : Flat ds qs) :
    Flat (cs ++ ds) (ps ++ qs) := by
  induction h with
  | nil => exact h'
  | word hw _ ih =>
    rw [List.append_assoc]
    exact .word hw ih
  | group ho hc hinner _ _ ih =>
    rw [List.append_assoc]
    exact .group ho hc hinner ih

mutual

theorem Chunk.flat_of_raw : (c : Chunk) → faultsOf c.raw.1 = [] → Flat [c] c.raw.1
  | .word w, h => by
    rw [Chunk.raw] at h ⊢
    obtain ⟨hparts, hw⟩ := (faultsOf_alone w .part).1 h
    rw [hparts]
    simpa using Flat.word hw .nil
  | .group o inner (some c), h => by
    simp only [Chunk.raw, faultsOf_append, List.append_eq_nil_iff] at h ⊢
    obtain ⟨⟨ho, hinner⟩, hc⟩ := h
    simpa using Flat.group ((faultsOf_parts o .part).1 ho) ((faultsOf_parts c .part).1 hc)
      (flat_of_rawAll _ inner hinner) .nil
  | .group o inner none, h => by
    simp [Chunk.raw] at h

theorem flat_of_rawAll (stop : Place) : (cs : List Chunk) →
    faultsOf (Chunk.rawAll stop cs).1 = [] → Flat cs (Chunk.rawAll stop cs).1
  | [], _ => by
    rw [Chunk.rawAll]
    exact .nil
  | c :: rest, h => by
    rw [Chunk.rawAll] at h ⊢
    rw [faultsOf_append, List.append_eq_nil_iff] at h
    exact (c.flat_of_raw h.1).append (flat_of_rawAll _ rest h.2)

end

/-! ### Derivations -/

/-- What the grammar sees of chunks. -/
def viewOf (cs : List Chunk) : List Head := view (cs.map Chunk.head)

/-- The comments before chunks. -/
def leadOf : List Chunk → Parts
  | [] => []
  | c :: _ => c.first.lead

/-- Chunks without the comments before them. -/
def bareOf : List Chunk → List Chunk
  | [] => []
  | c :: rest => c.bare :: rest

/-- The symbols derive the parts from the chunks, and leave the last chunks. -/
inductive Derives : List Symbol → List Chunk → Parts → List Chunk → Prop
  | nil {cs : List Chunk} : Derives [] cs [] cs
  | token {role : Role} {w : Lexeme} {ss : List Symbol} {cs rest : List Chunk} {parts : Parts} :
      w.token.word.isStray = false ∧ w.token.word.closes = false → Derives ss cs parts rest →
      Derives (.token role :: ss) (.word w :: cs) (w.parts role ++ parts) rest
  | raw {taken cs rest : List Chunk} {ss : List Symbol} {ps parts : Parts} :
      Flat taken ps → Derives ss cs parts rest →
      Derives (.raw taken.length :: ss) (taken ++ cs) (ps ++ parts) rest
  | group {opening : String} {p : Phrase} {o c : Lexeme} {ss : List Symbol}
      {inner cs rest : List Chunk} {ps parts : Parts} :
      o.token.word.is opening = true → o.token.word.isStray = false → c.token.word.isStray = false →
      Derives [.phrase p] inner ps [] → Derives ss cs parts rest →
      Derives (.group opening p :: ss) (.group o inner (some c) :: cs)
        (o.parts .part ++ ps ++ c.parts .part ++ parts) rest
  | node {role : Role} {kind : NodeKind} {place : Place} {ss : List Symbol}
      {cs mid rest : List Chunk} {ps parts : Parts} :
      kind ≠ .error → ps ≠ [] → Derives [.phrase (.inside kind)] (bareOf cs) ps mid →
      Derives ss mid parts rest →
      Derives (.node role kind :: ss) cs
        (leadOf cs ++ (role, .node kind (extentOf place ps) ps) :: parts) rest
  | phrase {p : Phrase} {ss : List Symbol} {cs mid rest : List Chunk} {ps parts : Parts} :
      Derives (p.expand (viewOf cs)) cs ps mid → Derives ss mid parts rest →
      Derives (.phrase p :: ss) cs (ps ++ parts) rest
  | done {p : Phrase} {ss : List Symbol} {cs rest : List Chunk} {parts : Parts} :
      p.expand (viewOf cs) = [] → Derives ss cs parts rest → Derives (.many p :: ss) cs parts rest
  | more {p : Phrase} {ss : List Symbol} {cs mid rest : List Chunk} {ps parts : Parts} :
      p.expand (viewOf cs) ≠ [] → mid.length < cs.length → Derives (p.expand (viewOf cs)) cs ps mid →
      Derives (.many p :: ss) mid parts rest → Derives (.many p :: ss) cs (ps ++ parts) rest

theorem Derives.append {ss ss' : List Symbol} {cs mid rest : List Chunk} {ps qs : Parts}
    (h : Derives ss cs ps mid) (h' : Derives ss' mid qs rest) :
    Derives (ss ++ ss') cs (ps ++ qs) rest := by
  induction h with
  | nil => exact h'
  | token hw _ ih =>
    rw [List.append_assoc]
    exact .token hw (ih h')
  | raw hflat _ ih =>
    rw [List.append_assoc]
    exact .raw hflat (ih h')
  | group hopening ho hc hinner _ _ ih =>
    rw [List.append_assoc]
    exact .group hopening ho hc hinner (ih h')
  | node hkind hps hinside _ _ ih =>
    rw [List.append_assoc]
    exact .node hkind hps hinside (ih h')
  | phrase hp _ _ ih =>
    rw [List.append_assoc]
    exact .phrase hp (ih h')
  | done hp _ ih => exact .done hp (ih h')
  | more hp hlt hfirst _ _ ih =>
    rw [List.append_assoc]
    exact .more hp hlt hfirst (ih h')

theorem derives_singleton {s : Symbol} {ss : List Symbol} {cs mid rest : List Chunk}
    {ps qs : Parts} (h : Derives [s] cs ps mid) (h' : Derives ss mid qs rest) :
    Derives (s :: ss) cs (ps ++ qs) rest := h.append h'

/-- A derivation from two lists of symbols, one list after the other. -/
theorem Derives.split {ss ss' : List Symbol} {cs rest : List Chunk} {parts : Parts}
    (h : Derives (ss ++ ss') cs parts rest) :
    ∃ ps qs mid, parts = ps ++ qs ∧ Derives ss cs ps mid ∧ Derives ss' mid qs rest := by
  generalize htotal : ss ++ ss' = total at h
  induction h generalizing ss with
  | nil =>
    obtain ⟨rfl, rfl⟩ := List.append_eq_nil_iff.1 htotal
    exact ⟨[], [], _, rfl, .nil, .nil⟩
  | token hw hrest ih =>
    rcases List.append_eq_cons_iff.1 htotal with ⟨rfl, rfl⟩ | ⟨ss, rfl, rfl⟩
    · exact ⟨[], _, _, rfl, .nil, .token hw hrest⟩
    · obtain ⟨ps, qs, mid, rfl, hps, hqs⟩ := ih rfl
      exact ⟨_, qs, mid, (List.append_assoc ..).symm, .token hw hps, hqs⟩
  | raw hflat hrest ih =>
    rcases List.append_eq_cons_iff.1 htotal with ⟨rfl, rfl⟩ | ⟨ss, rfl, rfl⟩
    · exact ⟨[], _, _, rfl, .nil, .raw hflat hrest⟩
    · obtain ⟨ps, qs, mid, rfl, hps, hqs⟩ := ih rfl
      exact ⟨_, qs, mid, (List.append_assoc ..).symm, .raw hflat hps, hqs⟩
  | group hopening ho hc hinner hrest _ ih =>
    rcases List.append_eq_cons_iff.1 htotal with ⟨rfl, rfl⟩ | ⟨ss, rfl, rfl⟩
    · exact ⟨[], _, _, rfl, .nil, .group hopening ho hc hinner hrest⟩
    · obtain ⟨ps, qs, mid, rfl, hps, hqs⟩ := ih rfl
      exact ⟨_, qs, mid, (List.append_assoc ..).symm, .group hopening ho hc hinner hps, hqs⟩
  | node hkind hne hinside hrest _ ih =>
    rcases List.append_eq_cons_iff.1 htotal with ⟨rfl, rfl⟩ | ⟨ss, rfl, rfl⟩
    · exact ⟨[], _, _, rfl, .nil, .node hkind hne hinside hrest⟩
    · obtain ⟨ps, qs, mid, rfl, hps, hqs⟩ := ih rfl
      exact ⟨_, qs, mid, (List.append_assoc _ (_ :: _) _).symm, .node hkind hne hinside hps, hqs⟩
  | phrase hp hrest _ ih =>
    rcases List.append_eq_cons_iff.1 htotal with ⟨rfl, rfl⟩ | ⟨ss, rfl, rfl⟩
    · exact ⟨[], _, _, rfl, .nil, .phrase hp hrest⟩
    · obtain ⟨ps, qs, mid, rfl, hps, hqs⟩ := ih rfl
      exact ⟨_, qs, mid, (List.append_assoc ..).symm, .phrase hp hps, hqs⟩
  | done hp hrest ih =>
    rcases List.append_eq_cons_iff.1 htotal with ⟨rfl, rfl⟩ | ⟨ss, rfl, rfl⟩
    · exact ⟨[], _, _, rfl, .nil, .done hp hrest⟩
    · obtain ⟨ps, qs, mid, rfl, hps, hqs⟩ := ih rfl
      exact ⟨ps, qs, mid, rfl, .done hp hps, hqs⟩
  | more hp hlt hfirst hrest _ ih =>
    rcases List.append_eq_cons_iff.1 htotal with ⟨rfl, rfl⟩ | ⟨ss, rfl, rfl⟩
    · exact ⟨[], _, _, rfl, .nil, .more hp hlt hfirst hrest⟩
    · obtain ⟨ps, qs, mid, rfl, hps, hqs⟩ := @ih (_ :: ss) rfl
      exact ⟨_, qs, mid, (List.append_assoc ..).symm, .more hp hlt hfirst hps, hqs⟩

theorem derives_phrase {p : Phrase} {cs rest : List Chunk} {parts : Parts}
    (h : Derives [.phrase p] cs parts rest) : Derives (p.expand (viewOf cs)) cs parts rest := by
  cases h with
  | phrase hp hnil =>
    cases hnil
    rwa [List.append_nil]

/-! ### What derivations give -/

theorem tree_eq {t : Token} (h : t.word.isStray = false) (role : Role) :
    t.tree role = .leaf (t.leafKind role) t.extent := by
  rw [Token.tree, h]
  rfl

theorem forall_mem_parts {w : Lexeme} {role : Role} {Q : Role × Tree → Prop}
    (hlead : ∀ e, Q (.part, .leaf .comment e)) (hw : w.token.word.isStray = false)
    (htoken : ∀ kind e, Q (role, .leaf kind e)) : ∀ p ∈ w.parts role, Q p := by
  intro p hp
  rcases List.mem_append.1 hp with hp | hp
  · obtain ⟨c, -, rfl⟩ := List.mem_map.1 hp
    exact hlead c.extent
  · rw [List.mem_singleton.1 hp, tree_eq hw]
    exact htoken _ _

theorem Flat.forall_parts {Q : Role × Tree → Prop} (hleaf : ∀ kind e, Q (.part, .leaf kind e))
    {cs : List Chunk} {parts : Parts} (h : Flat cs parts) : ∀ p ∈ parts, Q p := by
  have hall : ∀ w : Lexeme, w.token.word.isStray = false → ∀ p ∈ w.parts .part, Q p :=
    fun w hw => forall_mem_parts (hleaf .comment) hw hleaf
  induction h with
  | nil => exact fun p hp => absurd hp List.not_mem_nil
  | word hw _ ih => exact fun p hp => (List.mem_append.1 hp).elim (hall _ hw.1 p) (ih p)
  | group ho hc _ _ ihinner ih =>
    simp only [List.mem_append]
    rintro p (((hp | hp) | hp) | hp)
    · exact hall _ ho p hp
    · exact ihinner p hp
    · exact hall _ hc p hp
    · exact ih p hp

/-- The symbol gives only parts with a property, when phrases of a class do. -/
def Symbol.Gives (Q : Role → Option NodeKind → Prop) (S : Phrase → Prop) : Symbol → Prop
  | .token role => Q role none
  | .node role kind => Q role (some kind)
  | .raw _ | .missing _ | .unfit _ => True
  | .phrase p | .many p | .group _ p => S p

/-- What kind of node the tree is. -/
def Tree.kind? : Tree → Option NodeKind
  | leaf .. => none
  | node kind _ _ => some kind

/-- What phrases of a class give when they consist of symbols that give it. -/
theorem Derives.forall_parts {Q : Role → Option NodeKind → Prop} {S : Phrase → Prop}
    (hpart : Q .part none) (hexpand : ∀ p, S p → ∀ hs, ∀ s ∈ p.expand hs, s.Gives Q S)
    {ss : List Symbol} {cs rest : List Chunk} {parts : Parts} (h : Derives ss cs parts rest)
    (hss : ∀ s ∈ ss, s.Gives Q S) : ∀ p ∈ parts, Q p.1 p.2.kind? := by
  have hleaf : ∀ w : Lexeme, w.token.word.isStray = false →
      ∀ p ∈ w.parts .part, Q p.1 p.2.kind? :=
    fun w hw => forall_mem_parts (fun _ => hpart) hw fun _ _ => hpart
  induction h with
  | nil => exact fun p hp => absurd hp List.not_mem_nil
  | token hw _ ih =>
    obtain ⟨hs, hss⟩ := List.forall_mem_cons.1 hss
    refine fun p hp => (List.mem_append.1 hp).elim (fun hp => ?_) (ih hss p)
    exact forall_mem_parts (Q := fun p => Q p.1 p.2.kind?) (fun _ => hpart) hw.1 (fun _ _ => hs) p hp
  | raw hflat _ ih =>
    refine fun p hp => (List.mem_append.1 hp).elim (fun hp => ?_)
      (ih (List.forall_mem_cons.1 hss).2 p)
    exact hflat.forall_parts (Q := fun p => Q p.1 p.2.kind?) (fun _ _ => hpart) p hp
  | group hopening ho hc _ _ ihinner ih =>
    obtain ⟨hs, hss⟩ := List.forall_mem_cons.1 hss
    simp only [List.mem_append]
    rintro p (((hp | hp) | hp) | hp)
    · exact hleaf _ ho p hp
    · exact ihinner (List.forall_mem_singleton.2 hs) p hp
    · exact hleaf _ hc p hp
    · exact ih hss p hp
  | @node role kind place ss cs mid rest ps parts hkind hps _ _ _ ih =>
    obtain ⟨hs, hss⟩ := List.forall_mem_cons.1 hss
    intro p hp
    rcases List.mem_append.1 hp with hp | hp
    · cases cs with
      | nil => cases hp
      | cons c cs =>
        obtain ⟨t, -, rfl⟩ := List.mem_map.1 hp
        exact hpart
    · rcases List.mem_cons.1 hp with rfl | hp
      · exact hs
      · exact ih hss p hp
  | phrase hp' _ ihp ih =>
    obtain ⟨hs, hss⟩ := List.forall_mem_cons.1 hss
    exact fun p hp => (List.mem_append.1 hp).elim (ihp (hexpand _ hs _) p) (ih hss p)
  | done _ _ ih => exact ih (List.forall_mem_cons.1 hss).2
  | more _ _ _ _ ihp ih =>
    have hs := (List.forall_mem_cons.1 hss).1
    exact fun p hp => (List.mem_append.1 hp).elim (ihp (hexpand _ hs _) p) (ih hss p)

/-! ### Readings without faults -/

namespace Reader

variable {r : Reader}

theorem comments_eq (r : Reader) : r.comments = (leadOf r.chunks, ⟨bareOf r.chunks, r.stop⟩) := by
  obtain ⟨cs, stop⟩ := r
  cases cs <;> rfl

/-- Nothing is left. -/
theorem chunks_of_faults_unread (h : faultsOf r.unread.1 = []) : r.chunks = [] ∧ r.unread.1 = [] := by
  unfold unread at h ⊢
  dsimp only at h ⊢
  split_ifs at h ⊢ with hempty
  · exact ⟨List.isEmpty_iff.1 hempty, rfl⟩
  · rw [faultsOf_cons, List.append_eq_nil_iff] at h
    exact absurd rfl (of_faults_nodeOf h.1).1

/-- The brackets are closed behind all that they hold. -/
theorem of_faults_close {opening : Word} {closing : Option Lexeme}
    (h : faultsOf (r.close opening closing).1 = []) : ∃ c, closing = some c ∧ r.chunks = [] ∧
      c.token.word.isStray = false ∧ (r.close opening closing).1 = c.parts .part := by
  cases closing with
  | none => simp [close] at h
  | some c =>
    rw [close, faultsOf_append, List.append_eq_nil_iff] at h
    obtain ⟨hnil, hunread⟩ := chunks_of_faults_unread h.1
    refine ⟨c, rfl, hnil, (faultsOf_parts c .part).1 h.2, ?_⟩
    rw [close, hunread]
    rfl

end Reader

/-- **What is read without a fault is derived.** -/
theorem derives_of_read {fuel : ℕ} {ss : List Symbol} {r : Reader}
    (h : faultsOf (read fuel ss r).1 = []) :
    Derives ss r.chunks (read fuel ss r).1 (read fuel ss r).2.chunks := by
  induction fuel generalizing ss r with
  | zero => simp [read] at h
  | succ fuel ih =>
    cases ss with
    | nil => exact .nil
    | cons s ss =>
      cases s with
      | token role =>
        rw [read] at h ⊢
        obtain ⟨cs, stop⟩ := r
        cases cs with
        | nil => simp [Reader.token] at h
        | cons c cs =>
          cases c with
          | group o inner closing => simp [Reader.token] at h
          | word w =>
            simp only [Reader.token, faultsOf_append, List.append_eq_nil_iff] at h ⊢
            obtain ⟨hparts, hw⟩ := (faultsOf_alone w role).1 h.1
            rw [hparts]
            exact .token hw (ih h.2)
      | raw n =>
        rw [read] at h ⊢
        simp only [Reader.raw] at h ⊢
        split_ifs at h ⊢ with hlength
        · simp at h
        · rw [faultsOf_append, List.append_eq_nil_iff] at h
          have hraw := Derives.raw (flat_of_rawAll r.stop _ h.1) (ih h.2)
          rw [List.take_append_drop, List.length_take_of_le (Nat.le_of_not_lt hlength)] at hraw
          exact hraw
      | missing what =>
        rw [read] at h
        simp at h
      | unfit role =>
        rw [read] at h
        simp only [Reader.unfit, faultsOf_append, faultsOf_cons, List.append_eq_nil_iff] at h
        exact absurd rfl (of_faults_nodeOf h.1.2.1).1
      | phrase p =>
        rw [read] at h ⊢
        rw [faultsOf_append, List.append_eq_nil_iff] at h
        exact .phrase (ih h.1) (ih h.2)
      | node role kind =>
        rw [read] at h ⊢
        simp only [Reader.comments_eq, faultsOf_append, faultsOf_cons, faultsOf_nil,
          List.append_nil, List.append_eq_nil_iff] at h ⊢
        obtain ⟨⟨-, hnode⟩, hrest⟩ := h
        obtain ⟨hkind, hparts, hfaults⟩ := of_faults_nodeOf hnode
        have hinside := ih hfaults
        rw [nodeOf, if_neg (by simpa using hparts), List.append_assoc]
        exact .node hkind hparts hinside (ih hrest)
      | many p =>
        rw [read] at h ⊢
        simp only at h ⊢
        split_ifs at h ⊢ with hempty hlength
        · exact .done (List.isEmpty_iff.1 hempty) (ih h)
        · simp only [faultsOf_append, List.append_eq_nil_iff] at h ⊢
          obtain ⟨⟨hfirst, hmore⟩, hrest⟩ := h
          rw [List.append_assoc]
          exact .more (mt List.isEmpty_iff.2 hempty) hlength (ih hfirst)
            (derives_singleton (ih hmore) (ih hrest))
        · simp at h
      | group opening p =>
        rw [read] at h ⊢
        obtain ⟨cs, stop⟩ := r
        cases cs with
        | nil => simp at h
        | cons c cs =>
          cases c with
          | word w => simp at h
          | group o inner closing =>
            simp only at h ⊢
            split_ifs at h ⊢ with hopening
            · simp only [faultsOf_append, List.append_eq_nil_iff] at h ⊢
              obtain ⟨⟨⟨ho, hinner⟩, hclose⟩, hrest⟩ := h
              obtain ⟨c, rfl, hnil, hc, hparts⟩ := Reader.of_faults_close hclose
              have hderives := ih hinner
              rw [hnil] at hderives
              rw [hparts]
              exact .group hopening ((faultsOf_parts o .part).1 ho) hc hderives (ih hrest)
            · simp at h

end BranchExclusion.Java
